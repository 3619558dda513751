import RainbowBridge.Crypto.Keccak512
import RainbowBridge.EthClient.DagAuthentication

/-! The ethash algorithm of the relayer. `hashimoto` asks for pairs of items of the
dataset, from the dataset itself or computed from the cache, and the indices of the
pairs are what the relayer proves. -/

namespace RainbowBridge.EthClient.Asking

variable {β : Type} {bound : Nat}

/-- Lookups that agree on what is asked for give the same result. -/
theorem run_eq_of_asked {first second : Nat → Nat → Option H512} (program : Asking β) (idx : Nat)
    (same : ∀ call ∈ program.asked second idx, first call.1 call.2 = second call.1 call.2) :
    program.run first idx = program.run second idx := by
  induction program generalizing idx with
  | done result => rfl
  | ask offset next ih =>
    have here := same (idx, offset) (by simp [asked])
    simp only [run]
    rw [here]
    cases found : second idx offset with
    | none => rfl
    | some item =>
      refine ih item (idx + 1) fun call member => same call ?_
      simp only [asked, found]
      exact List.mem_cons_of_mem _ member

theorem Paired.asked_lt {program : Asking β} (paired : program.Paired bound)
    (lookup : Nat → Nat → Option H512) (idx : Nat) : ∀ call ∈ program.asked lookup idx, call.2 < bound := by
  induction paired generalizing idx with
  | done result => simp [asked]
  | pair p inside next rest ih =>
    intro call member
    rw [asked] at member
    rcases List.mem_cons.mp member with rfl | member
    · exact Nat.lt_of_succ_lt inside
    · cases found : lookup idx (2 * p) with
      | none => simp [found] at member
      | some first =>
        simp only [found, asked] at member
        rcases List.mem_cons.mp member with rfl | member
        · exact inside
        · cases other : lookup (idx + 1) (2 * p + 1) with
          | none => simp [other] at member
          | some second =>
            simp only [other] at member
            exact ih first second (idx + 2) call member

end RainbowBridge.EthClient.Asking

namespace RainbowBridge.Ethash

open Lib EthTypes EthClient EthashProof

def mixBytes : Nat := 128

def hashBytes : Nat := 64

def hashWords : Nat := 16

def datasetParents : Nat := 256

def loopAccesses : Nat := 64

/-- `binary.LittleEndian.Uint32(data[i:])`. -/
def uint32At (data : Bytes) (i : Nat) : UInt32 := UInt32.ofNat (leNat ((data.drop i).take 4))

/-- The words of a byte string. -/
def uint32s (data : Bytes) : List UInt32 := (List.range (data.length / 4)).map fun i => uint32At data (i * 4)

/-- A buffer of so many bytes, into which the words are put. -/
def putUint32s (length : Nat) (words : List UInt32) : FixedBytes length :=
  List.Vector.ofFn fun i => (words.flatMap fun word => leBytes 4 word.toNat).getD i 0

def fnv (a b : UInt32) : UInt32 := a * 0x01000193 ^^^ b

def fnvHash (mix data : List UInt32) : List UInt32 := List.zipWith fnv mix data

/-- The words `cache[row * hashWords:]` of one row, with the product in 32 bits. -/
def cacheRow (cache : List UInt32) (row : UInt32) : Option (List UInt32) := do
  let offset := (row * UInt32.ofNat hashWords).toNat
  guard (offset + hashWords ≤ cache.length)
  return (cache.drop offset).take hashWords

/-- The loop that mixes random rows of the cache into an item. -/
def mixParents (cache : List UInt32) (rows index : UInt32) : Nat → Nat → List UInt32 → Option (List UInt32)
  | 0, _, intMix => some intMix
  | count + 1, i, intMix => do
    let parent := fnv (index ^^^ UInt32.ofNat i) (intMix.getD (i % 16) 0) % rows
    let row ← cacheRow cache parent
    mixParents cache rows index count (i + 1) (fnvHash intMix row)

section

variable [WideHashing]

/-- One item of the dataset; an empty cache is a division by zero. -/
def generateDatasetItem (cache : List UInt32) (index : UInt32) : Option H512 := do
  let rows := UInt32.ofNat (cache.length / hashWords)
  guard (rows ≠ 0)
  let row ← cacheRow cache (index % rows)
  let mix := keccak512 (putUint32s hashBytes (row.modifyHead fun word => word ^^^ index)).toList
  let intMix ← mixParents cache rows index datasetParents 0 (uint32s mix.toList)
  return keccak512 (putUint32s hashBytes intMix).toList

/-- The dataset of a size, as words: its items one after the other. The progress is
counted in percents, which divides by zero if there are fewer than a hundred items. -/
def generateDataset (size : Nat) (cache : List UInt32) : Option (List UInt32) := do
  guard (size / hashBytes = 0 ∨ size / hashBytes / 100 ≠ 0)
  let items ← (List.range (size / hashBytes)).mapM fun index => generateDatasetItem cache (UInt32.ofNat index)
  return items.flatMap fun item => uint32s item.toList

end

section

variable [Hashing]

/-- `Compress mix`, the digest and the result. -/
def finish (seed : H512) (mix : List UInt32) : H256 × H256 :=
  let compressed := (List.range (mix.length / 4)).map fun i =>
    fnv (fnv (fnv (mix.getD (4 * i) 0) (mix.getD (4 * i + 1) 0)) (mix.getD (4 * i + 2) 0))
      (mix.getD (4 * i + 3) 0)
  let digest := putUint32s 32 compressed
  (digest, keccak256 (seed.toList ++ digest.toList))

/-- The pair that access `i` asks for. -/
def parentOf (rows seedHead : UInt32) (i : Nat) (mix : List UInt32) : UInt32 :=
  fnv (UInt32.ofNat i ^^^ seedHead) (mix.getD (i % mix.length) 0) % rows

/-- The mix after a pair of items. -/
def mixIn (mix : List UInt32) (first second : H512) : List UInt32 :=
  fnvHash mix (uint32s first.toList ++ uint32s second.toList)

/-- The accesses that are left, from the `i`-th on. -/
def accesses (rows seedHead : UInt32) (seed : H512) : Nat → Nat → List UInt32 → Asking (H256 × H256)
  | 0, _, mix => .done (some (finish seed mix))
  | count + 1, i, mix =>
    let parent := parentOf rows seedHead i mix
    .ask (2 * parent).toNat fun first => .ask (2 * parent + 1).toNat fun second =>
      accesses rows seedHead seed count (i + 1) (mixIn mix first second)

/-- `hashimotoIndices` from the `i`-th access on: the pairs that are asked for. -/
def accessIndices (rows seedHead : UInt32) (lookup : UInt32 → Option H512) :
    Nat → Nat → List UInt32 → Option (List UInt32)
  | 0, _, _ => some []
  | count + 1, i, mix => do
    let parent := parentOf rows seedHead i mix
    let first ← lookup (2 * parent)
    let second ← lookup (2 * parent + 1)
    let later ← accessIndices rows seedHead lookup count (i + 1) (mixIn mix first second)
    return parent :: later

variable [WideHashing]

/-- The seed of a header and a nonce. -/
def seedOf (hash : H256) (nonce : UInt64) : H512 := keccak512 (hash.toList ++ leBytes 8 nonce.toNat)

/-- The mix at the start, the seed twice. -/
def firstMix (seed : H512) : List UInt32 :=
  (List.range (mixBytes / 4)).map fun i => uint32At seed.toList (i % 16 * 4)

/-- `hashimoto`, which asks its `lookup` for the words of items. No rows are a division by
zero. -/
def hashimoto (hash : H256) (nonce : UInt64) (size : Nat) : Asking (H256 × H256) :=
  let rows := UInt32.ofNat (size / mixBytes)
  let seed := seedOf hash nonce
  if rows = 0 then .done none
  else accesses rows (uint32At seed.toList 0) seed loopAccesses 0 (firstMix seed)

def hashimotoIndices (hash : H256) (nonce : UInt64) (size : Nat) (lookup : UInt32 → Option H512) :
    Option (List UInt32) := do
  let rows := UInt32.ofNat (size / mixBytes)
  let seed := seedOf hash nonce
  guard (rows ≠ 0)
  accessIndices rows (uint32At seed.toList 0) lookup loopAccesses 0 (firstMix seed)

def hashimotoLight (size : Nat) (cache : List UInt32) (hash : H256) (nonce : UInt64) : Option (H256 × H256) :=
  (hashimoto hash nonce size).run (fun _ index => generateDatasetItem cache (UInt32.ofNat index)) 0

def hashimotoLightIndices (size : Nat) (cache : List UInt32) (hash : H256) (nonce : UInt64) :
    Option (List UInt32) :=
  hashimotoIndices hash nonce size (generateDatasetItem cache)

/-- `dataset[offset : offset+hashWords]`, with the offset in 32 bits. -/
def datasetSlice (dataset : List UInt32) (index : UInt32) : Option H512 := do
  let offset := index * UInt32.ofNat hashWords
  let stop := offset + UInt32.ofNat hashWords
  guard (offset.toNat ≤ stop.toNat ∧ stop.toNat ≤ dataset.length)
  return putUint32s hashBytes ((dataset.drop offset.toNat).take (stop.toNat - offset.toNat))

def hashimotoFull (dataset : List UInt32) (hash : H256) (nonce : UInt64) : Option (H256 × H256) :=
  (hashimoto hash nonce (dataset.length * 4)).run
    (fun _ index => datasetSlice dataset (UInt32.ofNat index)) 0

end

section Rows

variable {rows : UInt32}

theorem parentOf_lt (some : rows ≠ 0) (seedHead : UInt32) (i : Nat) (mix : List UInt32) :
    (parentOf rows seedHead i mix).toNat < rows.toNat := by
  have positive : 0 < rows := UInt32.pos_iff_ne_zero.mpr some
  exact UInt32.lt_iff_toNat_lt.mp (UInt32.mod_lt _ positive)

/-- The two offsets of a pair do not overflow. -/
theorem toNat_pair {parent : UInt32} (low : parent.toNat < rows.toNat) (fits : rows.toNat ≤ 2 ^ 31) :
    (2 * parent).toNat = 2 * parent.toNat ∧ (2 * parent + 1).toNat = 2 * parent.toNat + 1 := by
  have double : (2 * parent).toNat = 2 * parent.toNat := by
    rw [UInt32.toNat_mul]
    exact Nat.mod_eq_of_lt (by simp only [UInt32.reduceToNat]; omega)
  refine ⟨double, ?_⟩
  rw [UInt32.toNat_add, double]
  exact Nat.mod_eq_of_lt (by simp only [UInt32.reduceToNat]; omega)

variable [Hashing]

theorem accesses_paired (some : rows ≠ 0) (fits : rows.toNat ≤ 2 ^ 31) (seedHead : UInt32) (seed : H512)
    (count i : Nat) (mix : List UInt32) :
    (accesses rows seedHead seed count i mix).Paired (2 * rows.toNat) := by
  induction count generalizing i mix with
  | zero => exact .done _
  | succ count ih =>
    have low := parentOf_lt some seedHead i mix
    obtain ⟨first, second⟩ := toNat_pair low fits
    rw [accesses]
    simp only [first, second]
    exact .pair _ (by omega) _ fun first second => ih (i + 1) (mixIn mix first second)

variable [WideHashing]

theorem hashimoto_paired {size : Nat} (small : size / mixBytes ≤ 2 ^ 31) (hash : H256) (nonce : UInt64) :
    (hashimoto hash nonce size).Paired (2 * (size / mixBytes)) := by
  have value : (UInt32.ofNat (size / mixBytes)).toNat = size / mixBytes :=
    UInt32.toNat_ofNat_of_lt' (by simp only [UInt32.size]; omega)
  rw [hashimoto]
  split
  case isTrue => exact .done _
  case isFalse some =>
    have paired := accesses_paired some (value.symm ▸ small) (uint32At (seedOf hash nonce).toList 0)
      (seedOf hash nonce) loopAccesses 0 (firstMix (seedOf hash nonce))
    rwa [value] at paired

end Rows

/-! Words and the bytes that they are put to. -/

section Words

theorem length_uint32s (data : Bytes) : (uint32s data).length = data.length / 4 := by
  simp [uint32s]

/-- The pieces of a list, one after the other. -/
theorem flatMap_pieces (data : Bytes) (width count : Nat) :
    ((List.range count).flatMap fun i => (data.drop (i * width)).take width) = data.take (count * width) := by
  induction count with
  | zero => simp
  | succ count ih => rw [List.range_succ, List.flatMap_append, ih, List.flatMap_singleton, ← List.take_add,
      Nat.succ_mul]

theorem leBytes_uint32At {data : Bytes} {i : Nat} (inside : i + 4 ≤ data.length) :
    leBytes 4 (uint32At data i).toNat = (data.drop i).take 4 := by
  have long : ((data.drop i).take 4).length = 4 := by
    rw [List.length_take, List.length_drop]
    omega
  have bound := leNat_lt ((data.drop i).take 4)
  have bytes := leBytes_leNat ((data.drop i).take 4)
  rw [long] at bound bytes
  rw [uint32At, UInt32.toNat_ofNat_of_lt' bound, bytes]

theorem flatMap_uint32s {data : Bytes} (whole : 4 ∣ data.length) :
    ((uint32s data).flatMap fun word => leBytes 4 word.toNat) = data := by
  obtain ⟨count, long⟩ := whole
  have pieces := flatMap_pieces data 4 count
  rw [List.take_of_length_le (by omega)] at pieces
  rw [uint32s, List.flatMap_map, long, Nat.mul_div_cancel_left count (by decide)]
  refine Eq.trans ?_ pieces
  rw [List.flatMap, List.flatMap]
  refine congrArg List.flatten (List.map_congr_left fun i member => ?_)
  have inside := List.mem_range.mp member
  exact leBytes_uint32At (by omega)

theorem putUint32s_eq {length : Nat} {words : List UInt32} {data : FixedBytes length}
    (bytes : (words.flatMap fun word => leBytes 4 word.toNat) = data.toList) : putUint32s length words = data := by
  apply List.Vector.ext
  intro i
  rw [putUint32s, List.Vector.get_ofFn, bytes, List.getD_eq_getElem?_getD,
    List.getElem?_eq_getElem (by simp), List.Vector.get_eq_get_toList]
  rfl

/-- An item is what its words are put to. -/
theorem putUint32s_uint32s (item : H512) : putUint32s hashBytes (uint32s item.toList) = item :=
  putUint32s_eq (flatMap_uint32s (by simp))

end Words

section Dataset

theorem getElem?_mapM {α β : Type} {f : α → Option β} {items : List α} {results : List β}
    (mapped : items.mapM f = some results) {i : Nat} {item : α} (found : items[i]? = some item) :
    ∃ result, results[i]? = some result ∧ f item = some result := by
  induction items generalizing i results with
  | nil => simp at found
  | cons first rest ih =>
    rw [List.mapM_cons] at mapped
    obtain ⟨head, here, mapped⟩ := Option.bind_eq_some_iff.mp mapped
    obtain ⟨tail, later, same⟩ := Option.bind_eq_some_iff.mp mapped
    cases same
    cases i with
    | zero =>
      cases found
      exact ⟨head, rfl, here⟩
    | succ i => exact ih later found

theorem length_mapM {α β : Type} {f : α → Option β} {items : List α} {results : List β}
    (mapped : items.mapM f = some results) : results.length = items.length := by
  induction items generalizing results with
  | nil =>
    cases mapped
    rfl
  | cons first rest ih =>
    rw [List.mapM_cons] at mapped
    obtain ⟨head, here, mapped⟩ := Option.bind_eq_some_iff.mp mapped
    obtain ⟨tail, later, same⟩ := Option.bind_eq_some_iff.mp mapped
    cases same
    rw [List.length_cons, List.length_cons, ih later]

variable [WideHashing] {size : Nat} {cache dataset : List UInt32}

theorem generateDataset_eq_some : generateDataset size cache = some dataset ↔
    (size / hashBytes = 0 ∨ size / hashBytes / 100 ≠ 0) ∧
      ∃ items, ((List.range (size / hashBytes)).mapM fun index =>
        generateDatasetItem cache (UInt32.ofNat index)) = some items ∧
        (items.flatMap fun item => uint32s item.toList) = dataset := by
  simp only [generateDataset, Option.bind_eq_bind, Option.bind_eq_some_iff, Option.guard_eq_some',
    exists_const, Option.pure_def, Option.some.injEq]

omit [WideHashing] in
theorem length_words (item : H512) : (uint32s item.toList).length = hashWords := by
  rw [length_uint32s, List.Vector.toList_length]
  rfl

theorem length_generateDataset (built : generateDataset size cache = some dataset) :
    dataset.length = size / hashBytes * hashWords := by
  obtain ⟨-, items, generated, rfl⟩ := generateDataset_eq_some.mp built
  rw [List.length_flatMap, List.map_congr_left fun item _ => length_words item, List.map_const',
    List.sum_replicate_nat, length_mapM generated, List.length_range]

omit [WideHashing] in
/-- The words of an item of a list of them, as long as offsets of words fit in 32 bits. -/
theorem datasetSlice_flatMap {items : List H512} (small : items.length < 2 ^ 28) {index : Nat} {item : H512}
    (found : items[index]? = some item) :
    datasetSlice (items.flatMap fun item => uint32s item.toList) (UInt32.ofNat index) = some item := by
  have words : ∀ item ∈ items, (uint32s item.toList).length = 16 := fun item _ => length_words item
  have length : (items.flatMap fun item => uint32s item.toList).length = items.length * 16 := by
    rw [List.length_flatMap, List.map_congr_left words, List.map_const', List.sum_replicate_nat]
  have inside : index < items.length := (List.getElem?_eq_some_iff.mp found).choose
  have value : (UInt32.ofNat index).toNat = index := UInt32.toNat_ofNat_of_lt' (by simp only [UInt32.size]; omega)
  have offset : (UInt32.ofNat index * UInt32.ofNat 16).toNat = index * 16 := by
    rw [UInt32.toNat_mul, value]
    exact Nat.mod_eq_of_lt (show index * 16 < 2 ^ 32 by omega)
  have stop : (UInt32.ofNat index * UInt32.ofNat 16 + UInt32.ofNat 16).toNat = index * 16 + 16 := by
    rw [UInt32.toNat_add, offset]
    exact Nat.mod_eq_of_lt (show index * 16 + 16 < 2 ^ 32 by omega)
  have slice := flatMap_slice words found
  rw [datasetSlice]
  simp only [hashWords, hashBytes, offset, stop, length]
  have within : index * 16 ≤ index * 16 + 16 ∧ index * 16 + 16 ≤ items.length * 16 := by omega
  rw [Nat.add_sub_cancel_left, slice]
  simp only [within, and_self, guard_true, pure_bind]
  exact congrArg some (putUint32s_uint32s item)

/-- A slice of the dataset is the item that the cache gives. -/
theorem datasetSlice_eq (built : generateDataset size cache = some dataset) (small : size < 2 ^ 34) {index : Nat}
    (inside : index < size / hashBytes) :
    datasetSlice dataset (UInt32.ofNat index) = generateDatasetItem cache (UInt32.ofNat index) := by
  obtain ⟨-, items, generated, rfl⟩ := generateDataset_eq_some.mp built
  obtain ⟨item, found, made⟩ := getElem?_mapM generated (List.getElem?_range inside)
  have length := length_mapM generated
  rw [List.length_range] at length
  simp only [hashBytes] at length
  rw [made]
  exact datasetSlice_flatMap (by omega) found

variable [Hashing]

/-- Mining with the dataset and verifying with the cache ask for the same items. -/
theorem hashimotoFull_eq (built : generateDataset size cache = some dataset) (small : size < 2 ^ 34)
    (whole : mixBytes ∣ size) (hash : H256) (nonce : UInt64) :
    hashimotoFull dataset hash nonce = hashimotoLight size cache hash nonce := by
  have length := length_generateDataset built
  simp only [mixBytes, hashBytes, hashWords] at whole length
  have bytes : dataset.length * 4 = size := by omega
  have paired := hashimoto_paired (by simp only [mixBytes]; omega : size / mixBytes ≤ 2 ^ 31) hash nonce
  rw [hashimotoFull, hashimotoLight, bytes]
  apply Asking.run_eq_of_asked
  intro call member
  have inside := paired.asked_lt _ _ call member
  simp only [mixBytes] at inside
  exact datasetSlice_eq built small (by simp only [hashBytes]; omega)

end Dataset

section Indices

variable [Hashing] {rows seedHead : UInt32} {seed : H512} {lookup : UInt32 → Option H512}

/-- Call `2 * k` and the next one are for the two items of the `k`-th pair. -/
def CallsOf (indices : List UInt32) (k : Nat) (call : Nat × Nat) : Prop :=
  ∃ i parent, indices[i]? = some parent ∧
    (call = (2 * (k + i), 2 * parent.toNat) ∨ call = (2 * (k + i) + 1, 2 * parent.toNat + 1))

theorem asked_accesses (some : rows ≠ 0) (fits : rows.toNat ≤ 2 ^ 31) {count i k : Nat} {mix : List UInt32}
    {indices : List UInt32} (found : accessIndices rows seedHead lookup count i mix = .some indices) :
    ∀ call ∈ (accesses rows seedHead seed count i mix).asked (fun _ offset => lookup (UInt32.ofNat offset)) (2 * k),
      CallsOf indices k call := by
  induction count generalizing i k mix indices with
  | zero => simp [accesses, Asking.asked]
  | succ count ih =>
    obtain ⟨even, odd⟩ := toNat_pair (parentOf_lt some seedHead i mix) fits
    obtain ⟨first, here, found⟩ := Option.bind_eq_some_iff.mp found
    obtain ⟨second, next, found⟩ := Option.bind_eq_some_iff.mp found
    obtain ⟨later, rest, same⟩ := Option.bind_eq_some_iff.mp found
    cases same
    intro call member
    simp only [accesses, Asking.asked, UInt32.ofNat_toNat, here, next] at member
    rcases List.mem_cons.mp member with rfl | member
    · exact ⟨0, _, rfl, .inl (by rw [even]; rfl)⟩
    · rcases List.mem_cons.mp member with rfl | member
      · exact ⟨0, _, rfl, .inr (by rw [odd]; rfl)⟩
      · obtain ⟨j, parent, known, which⟩ := ih rest call (k := k + 1) member
        refine ⟨j + 1, parent, known, ?_⟩
        rwa [show k + (j + 1) = k + 1 + j by omega]

omit [Hashing] in
theorem accessIndices_lt (some : rows ≠ 0) {count i : Nat} {mix indices : List UInt32}
    (found : accessIndices rows seedHead lookup count i mix = .some indices) :
    indices.length = count ∧ ∀ parent ∈ indices, parent.toNat < rows.toNat := by
  induction count generalizing i mix indices with
  | zero =>
    cases found
    simp
  | succ count ih =>
    obtain ⟨first, here, found⟩ := Option.bind_eq_some_iff.mp found
    obtain ⟨second, next, found⟩ := Option.bind_eq_some_iff.mp found
    obtain ⟨later, rest, same⟩ := Option.bind_eq_some_iff.mp found
    cases same
    obtain ⟨length, low⟩ := ih rest
    refine ⟨by rw [List.length_cons, length], ?_⟩
    intro parent member
    rcases List.mem_cons.mp member with rfl | member
    · exact parentOf_lt some seedHead i mix
    · exact low parent member

end Indices

/-! With a cache of at least one row nothing fails. -/

section Total

variable [WideHashing] {cache : List UInt32}

omit [WideHashing] in
/-- Offsets of rows are exact below 16 GiB. -/
theorem cacheRow_isSome {row : UInt32} (few : cache.length < 2 ^ 32) (inside : row.toNat < cache.length / 16) :
    ∃ words, cacheRow cache row = some words := by
  have offset : (row * UInt32.ofNat 16).toNat = row.toNat * 16 := by
    rw [UInt32.toNat_mul]
    exact Nat.mod_eq_of_lt (show row.toNat * 16 < 2 ^ 32 by omega)
  have within : row.toNat * 16 + 16 ≤ cache.length := by omega
  refine ⟨(cache.drop (row.toNat * 16)).take 16, ?_⟩
  rw [cacheRow]
  simp only [hashWords, offset, within, guard_true, pure_bind]
  rfl

omit [WideHashing] in
/-- Every remainder by the number of rows is a row. -/
theorem cacheRow_mod (few : cache.length < 2 ^ 32) (nonempty : 16 ≤ cache.length) (value : UInt32) :
    ∃ words, cacheRow cache (value % UInt32.ofNat (cache.length / 16)) = some words := by
  have rows : (UInt32.ofNat (cache.length / 16)).toNat = cache.length / 16 :=
    UInt32.toNat_ofNat_of_lt' (by simp only [UInt32.size]; omega)
  apply cacheRow_isSome few
  rw [UInt32.toNat_mod, rows]
  exact Nat.mod_lt _ (by omega)

omit [WideHashing] in
theorem mixParents_isSome (few : cache.length < 2 ^ 32) (nonempty : 16 ≤ cache.length) (index : UInt32)
    (count i : Nat) (intMix : List UInt32) :
    ∃ mixed, mixParents cache (UInt32.ofNat (cache.length / 16)) index count i intMix = some mixed := by
  induction count generalizing i intMix with
  | zero => exact ⟨intMix, rfl⟩
  | succ count ih =>
    obtain ⟨row, found⟩ := cacheRow_mod few nonempty (fnv (index ^^^ UInt32.ofNat i) (intMix.getD (i % 16) 0))
    obtain ⟨mixed, rest⟩ := ih (i + 1) (fnvHash intMix row)
    refine ⟨mixed, ?_⟩
    rw [mixParents]
    simp only [found, Option.bind_eq_bind, Option.bind_some, rest]

theorem generateDatasetItem_isSome (few : cache.length < 2 ^ 32) (nonempty : 16 ≤ cache.length) (index : UInt32) :
    ∃ item, generateDatasetItem cache index = some item := by
  have value : (UInt32.ofNat (cache.length / 16)).toNat = cache.length / 16 :=
    UInt32.toNat_ofNat_of_lt' (by simp only [UInt32.size]; omega)
  have rows : UInt32.ofNat (cache.length / 16) ≠ 0 := by
    intro zero
    rw [zero, UInt32.toNat_zero] at value
    omega
  obtain ⟨row, found⟩ := cacheRow_mod few nonempty index
  obtain ⟨mixed, rest⟩ := mixParents_isSome few nonempty index datasetParents 0
    (uint32s (keccak512 (putUint32s hashBytes (row.modifyHead fun word => word ^^^ index)).toList).toList)
  refine ⟨keccak512 (putUint32s hashBytes mixed).toList, ?_⟩
  simp only [generateDatasetItem, Option.bind_eq_bind, Option.bind_eq_some_iff, Option.guard_eq_some',
    exists_const]
  exact ⟨rows, row, found, mixed, rest, rfl⟩

theorem generateDataset_isSome (few : cache.length < 2 ^ 32) (nonempty : 16 ≤ cache.length) {size : Nat}
    (percents : 6400 ≤ size) : ∃ dataset, generateDataset size cache = some dataset := by
  choose item made using generateDatasetItem_isSome few nonempty
  refine ⟨_, generateDataset_eq_some.mpr ⟨.inr ?_, _, mapM_eq_map fun index _ => made (UInt32.ofNat index), rfl⟩⟩
  simp only [hashBytes]
  omega

variable [Hashing] {rows seedHead : UInt32} {seed : H512} {lookup : UInt32 → Option H512}

variable (seedHead seed) in
omit [WideHashing] in
/-- With items for all rows, the accesses end with a result, and have indices. -/
theorem accesses_total (some : rows ≠ 0) (fits : rows.toNat ≤ 2 ^ 31)
    (total : ∀ index : UInt32, index.toNat < 2 * rows.toNat → ∃ item, lookup index = .some item) (count i k : Nat)
    (mix : List UInt32) :
    (∃ result, (accesses rows seedHead seed count i mix).run (fun _ offset => lookup (UInt32.ofNat offset)) k =
        .some result) ∧
      ∃ indices, accessIndices rows seedHead lookup count i mix = .some indices := by
  induction count generalizing i k mix with
  | zero => exact ⟨⟨finish seed mix, rfl⟩, ⟨[], rfl⟩⟩
  | succ count ih =>
    have low := parentOf_lt some seedHead i mix
    obtain ⟨even, odd⟩ := toNat_pair low fits
    obtain ⟨first, here⟩ := total (2 * parentOf rows seedHead i mix) (by omega)
    obtain ⟨second, next⟩ := total (2 * parentOf rows seedHead i mix + 1) (by omega)
    obtain ⟨⟨result, ran⟩, indices, later⟩ := ih (i + 1) (k + 1 + 1) (mixIn mix first second)
    refine ⟨⟨result, ?_⟩, ⟨parentOf rows seedHead i mix :: indices, ?_⟩⟩
    · simp only [accesses, Asking.run, UInt32.ofNat_toNat, here, next, Option.bind_eq_bind, Option.bind_some, ran]
    · simp only [accessIndices, here, next, Option.bind_eq_bind, Option.bind_some, later]
      rfl

/-- Verification with a cache has a result, and asks for pairs of the dataset. -/
theorem hashimotoLight_total (few : cache.length < 2 ^ 32) (nonempty : 16 ≤ cache.length) {size : Nat}
    (positive : 0 < size / mixBytes) (small : size / mixBytes ≤ 2 ^ 31) (hash : H256) (nonce : UInt64) :
    ∃ result indices, hashimotoLight size cache hash nonce = some result ∧
      hashimotoLightIndices size cache hash nonce = some indices ∧
      indices.length = loopAccesses ∧ ∀ index ∈ indices, index.toNat < size / mixBytes := by
  have value : (UInt32.ofNat (size / mixBytes)).toNat = size / mixBytes :=
    UInt32.toNat_ofNat_of_lt' (by simp only [UInt32.size]; omega)
  have some : UInt32.ofNat (size / mixBytes) ≠ 0 := by
    intro zero
    rw [zero, UInt32.toNat_zero] at value
    omega
  obtain ⟨⟨result, ran⟩, indices, found⟩ := accesses_total
    (uint32At (seedOf hash nonce).toList 0) (seedOf hash nonce) some (by rwa [value])
    (fun index _ => generateDatasetItem_isSome few nonempty index) loopAccesses 0 0 (firstMix (seedOf hash nonce))
  obtain ⟨count, low⟩ := accessIndices_lt some found
  rw [value] at low
  refine ⟨result, indices, ?_, ?_, count, low⟩
  · rw [hashimotoLight, hashimoto]
    simp only [some, if_false]
    exact ran
  · simp only [hashimotoLightIndices, hashimotoIndices, some, ne_eq, not_false_eq_true, guard_true, pure_bind]
    exact found

end Total

end RainbowBridge.Ethash
