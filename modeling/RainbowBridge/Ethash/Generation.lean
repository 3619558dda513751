import RainbowBridge.Ethash.Hashimoto
import RainbowBridge.Lib.Workers
import Mathlib.Data.Nat.Prime.Basic

/-! The sizes of an epoch, its verification cache, and the dataset, which goroutines
generate each a batch of. -/

namespace RainbowBridge.Ethash

open Lib EthTypes EthClient EthashProof

def datasetInitBytes : UInt64 := 1073741824

def datasetGrowthBytes : UInt64 := 8388608

def cacheInitBytes : UInt64 := 16777216

def cacheGrowthBytes : UInt64 := 131072

def cacheRounds : Nat := 3

/-- The loop that looks for a prime number of units; the test is exact below `2 ^ 64`. -/
def highestPrime (unit : UInt64) : Nat → UInt64 → Option UInt64
  | 0, _ => none
  | fuel + 1, size =>
    if (size / unit).toNat.Prime then some size else highestPrime unit fuel (size - 2 * unit)

def calcCacheSize (fuel : Nat) (epoch : UInt64) : Option UInt64 :=
  highestPrime 64 fuel (cacheInitBytes + cacheGrowthBytes * epoch - 64)

def calcDatasetSize (fuel : Nat) (epoch : UInt64) : Option UInt64 :=
  highestPrime 128 fuel (datasetInitBytes + datasetGrowthBytes * epoch - 128)

section

variable [WideHashing]

/-- Each row is the hash of the one before. -/
def fillRows : Nat → Bytes → List H512
  | 0, _ => []
  | count + 1, data =>
    let row := keccak512 data
    row :: fillRows count row.toList

/-- Row `j` in a round: the row before it and one that its first word selects are
combined, with the offset of the latter in 32 bits. -/
def mixRow (cache : List H512) (j : Nat) : Option (List H512) := do
  let rows := cache.length
  let before ← cache[(j + rows - 1) % rows]?
  let row ← cache[j]?
  let offset := uint32At row.toList 0 % UInt32.ofNat rows * UInt32.ofNat hashBytes
  let other ← cache[offset.toNat / hashBytes]?
  return cache.set j (keccak512 (List.zipWith (· ^^^ ·) before.toList other.toList))

def mixRound (cache : List H512) : Option (List H512) := (List.range cache.length).foldlM mixRow cache

/-- The cache of so many words. The first rows are written in hashes of 64 bytes. -/
def generateCache (words : Nat) (seed : Bytes) : Option (List UInt32) := do
  guard (words ≠ 0 ∧ hashWords ∣ words)
  let rows ← (List.range cacheRounds).foldlM (fun cache _ => mixRound cache) (fillRows (words / hashWords) seed)
  return rows.flatMap fun row => uint32s row.toList

/-- The segment of the dataset that a goroutine generates. -/
def batch (size threads : Nat) : UInt32 := UInt32.ofNat ((size + hashBytes * threads - 1) / (hashBytes * threads))

def first (size threads id : Nat) : UInt32 := UInt32.ofNat id * batch size threads

def limit (size threads id : Nat) : UInt32 :=
  let limit := first size threads id + batch size threads
  if limit > UInt32.ofNat (size / hashBytes) then UInt32.ofNat (size / hashBytes) else limit

/-- The items of the dataset, and the index that each goroutine is at. -/
structure Generation where
  dataset : List H512
  index : Nat → UInt32

/-- One item of the goroutine whose turn it is. -/
def generation (size threads : Nat) (cache : List UInt32) : Machine Generation Nat where
  next := fun state id =>
    if id < threads ∧ state.index id < limit size threads id then
      match generateDatasetItem cache (state.index id) with
      | none => state
      | some item =>
        ⟨state.dataset.set (state.index id).toNat item,
          Function.update state.index id (state.index id + 1)⟩
    else state

/-- All goroutines have returned. -/
def Generation.Done (size threads : Nat) (state : Generation) : Prop :=
  ∀ id < threads, ¬ state.index id < limit size threads id

end

/-! The sizes. -/

section Sizes

/-- From an odd number of units on, the loop ends at the highest prime. -/
theorem highestPrime_eq {unit : UInt64} (positive : 0 < unit.toNat) (low : 2 * unit.toNat < 2 ^ 64) (k : Nat) :
    ∀ size : UInt64, size.toNat = unit.toNat * (2 * k + 3) →
      ∃ found : UInt64, ∃ q : Nat, q.Prime ∧ found.toNat = unit.toNat * q ∧ q ≤ 2 * k + 3 ∧
        (∀ p : Nat, p.Prime → p ≤ 2 * k + 3 → p ≤ q) ∧
        ∀ fuel > k, highestPrime unit fuel size = some found := by
  have quotient {size : UInt64} {q : Nat} (value : size.toNat = unit.toNat * q) : (size / unit).toNat = q := by
    rw [UInt64.toNat_div, value, Nat.mul_div_cancel_left q positive]
  induction k with
  | zero =>
    intro size value
    refine ⟨size, 3, Nat.prime_three, value, Nat.le_refl _, fun p _ bound => bound, fun fuel more => ?_⟩
    obtain ⟨fuel, rfl⟩ := Nat.exists_eq_add_one_of_ne_zero (Nat.ne_of_gt more)
    rw [highestPrime, quotient value, if_pos Nat.prime_three]
  | succ k ih =>
    intro size value
    by_cases prime : (2 * (k + 1) + 3).Prime
    · refine ⟨size, _, prime, value, Nat.le_refl _, fun p _ bound => bound, fun fuel more => ?_⟩
      obtain ⟨fuel, rfl⟩ := Nat.exists_eq_add_one_of_ne_zero (Nat.ne_of_gt (Nat.zero_lt_of_lt more))
      rw [highestPrime, quotient value, if_pos prime]
    · have twice : (2 * unit).toNat = 2 * unit.toNat := by
        rw [UInt64.toNat_mul]
        exact Nat.mod_eq_of_lt low
      have split : unit.toNat * (2 * (k + 1) + 3) = unit.toNat * (2 * k + 3) + 2 * unit.toNat := by ring
      have next : (size - 2 * unit).toNat = unit.toNat * (2 * k + 3) := by
        rw [UInt64.toNat_sub_of_le _ _ (UInt64.le_iff_toNat_le.mpr (by omega)), twice, value, split,
          Nat.add_sub_cancel]
      obtain ⟨found, q, isPrime, units, bound, highest, ends⟩ := ih (size - 2 * unit) next
      refine ⟨found, q, isPrime, units, by omega, ?_, fun fuel more => ?_⟩
      · intro p isPrime' below
        apply highest p isPrime'
        have different : p ≠ 2 * (k + 1) + 3 := fun same => prime (same ▸ isPrime')
        rcases isPrime'.eq_two_or_odd with two | odd <;> omega
      · obtain ⟨fuel, rfl⟩ := Nat.exists_eq_add_one_of_ne_zero (Nat.ne_of_gt (Nat.zero_lt_of_lt more))
        rw [highestPrime, quotient value, if_neg prime]
        exact ends fuel (by omega)

theorem highestPrime_below {unit start : UInt64} {k : Nat} (positive : 0 < unit.toNat)
    (low : 2 * unit.toNat < 2 ^ 64) (value : start.toNat = unit.toNat * (2 * k + 3)) :
    ∃ size, (∃ enough, ∀ fuel > enough, highestPrime unit fuel start = some size) ∧
      ∃ q : Nat, q.Prime ∧ size.toNat = unit.toNat * q ∧ size.toNat ≤ start.toNat ∧
        ∀ p : Nat, p.Prime → unit.toNat * p ≤ start.toNat → p ≤ q := by
  obtain ⟨size, q, prime, units, bound, highest, ends⟩ := highestPrime_eq positive low k start value
  refine ⟨size, ⟨k, ends⟩, q, prime, units, ?_, fun p isPrime below => highest p isPrime ?_⟩
  · rw [units, value]
    exact Nat.mul_le_mul_left _ bound
  · rw [value] at below
    exact Nat.le_of_mul_le_mul_left below positive

/-- For every epoch both loops end, at a prime number of units. Where the threshold does
not overflow it is the highest one below. -/
theorem sizes_highest_prime (epoch : UInt64) :
    (∃ size, (∃ enough, ∀ fuel > enough, calcCacheSize fuel epoch = some size) ∧
      ∃ q : Nat, q.Prime ∧ size.toNat = 64 * q ∧ (epoch.toNat < 2 ^ 47 - 2 ^ 7 →
        size.toNat < 2 ^ 24 + 2 ^ 17 * epoch.toNat ∧
        ∀ p : Nat, p.Prime → 64 * p < 2 ^ 24 + 2 ^ 17 * epoch.toNat → p ≤ q)) ∧
    ∃ size, (∃ enough, ∀ fuel > enough, calcDatasetSize fuel epoch = some size) ∧
      ∃ q : Nat, q.Prime ∧ size.toNat = 128 * q ∧ (epoch.toNat < 2 ^ 41 - 2 ^ 7 →
        size.toNat < 2 ^ 30 + 2 ^ 23 * epoch.toNat ∧
        ∀ p : Nat, p.Prime → 128 * p < 2 ^ 30 + 2 ^ 23 * epoch.toNat → p ≤ q) := by
  constructor
  · have start : (cacheInitBytes + cacheGrowthBytes * epoch - 64).toNat =
        (2 ^ 24 + 2 ^ 17 * epoch.toNat + 2 ^ 64 - 64) % 2 ^ 64 := by
      simp only [cacheInitBytes, cacheGrowthBytes, UInt64.toNat_sub, UInt64.toNat_add, UInt64.toNat_mul,
        UInt64.reduceToNat]
      omega
    -- Whether it overflows or not, it is an odd number of units, and not one.
    obtain ⟨k, odd⟩ : ∃ k, (2 ^ 24 + 2 ^ 17 * epoch.toNat + 2 ^ 64 - 64) % 2 ^ 64 = 64 * (2 * k + 3) :=
      ⟨((2 ^ 24 + 2 ^ 17 * epoch.toNat + 2 ^ 64 - 64) % 2 ^ 64 / 64 - 3) / 2, by omega⟩
    obtain ⟨size, ends, q, prime, units, bound, highest⟩ :=
      highestPrime_below (by decide : 0 < (64 : UInt64).toNat) (by decide) (start.trans odd)
    refine ⟨size, ends, q, prime, units, fun small => ⟨by omega, fun p isPrime below => highest p isPrime ?_⟩⟩
    simp only [UInt64.reduceToNat]
    omega
  · have start : (datasetInitBytes + datasetGrowthBytes * epoch - 128).toNat =
        (2 ^ 30 + 2 ^ 23 * epoch.toNat + 2 ^ 64 - 128) % 2 ^ 64 := by
      simp only [datasetInitBytes, datasetGrowthBytes, UInt64.toNat_sub, UInt64.toNat_add, UInt64.toNat_mul,
        UInt64.reduceToNat]
      omega
    obtain ⟨k, odd⟩ : ∃ k, (2 ^ 30 + 2 ^ 23 * epoch.toNat + 2 ^ 64 - 128) % 2 ^ 64 = 128 * (2 * k + 3) :=
      ⟨((2 ^ 30 + 2 ^ 23 * epoch.toNat + 2 ^ 64 - 128) % 2 ^ 64 / 128 - 3) / 2, by omega⟩
    obtain ⟨size, ends, q, prime, units, bound, highest⟩ :=
      highestPrime_below (by decide : 0 < (128 : UInt64).toNat) (by decide) (start.trans odd)
    refine ⟨size, ends, q, prime, units, fun small => ⟨by omega, fun p isPrime below => highest p isPrime ?_⟩⟩
    simp only [UInt64.reduceToNat]
    omega

end Sizes

/-! The cache. -/

section Cache

variable [WideHashing]

theorem length_fillRows (count : Nat) (data : Bytes) : (fillRows count data).length = count := by
  induction count generalizing data with
  | zero => rfl
  | succ count ih => rw [fillRows, List.length_cons, ih]

theorem mixRow_isSome {cache : List H512} (few : cache.length < 2 ^ 32) {j : Nat} (inside : j < cache.length) :
    ∃ mixed, mixRow cache j = some mixed ∧ mixed.length = cache.length := by
  have rows : (UInt32.ofNat cache.length).toNat = cache.length :=
    UInt32.toNat_ofNat_of_lt' (by simp only [UInt32.size]; omega)
  have before : (j + cache.length - 1) % cache.length < cache.length := Nat.mod_lt _ (by omega)
  have other : (uint32At cache[j].toList 0 % UInt32.ofNat cache.length * UInt32.ofNat hashBytes).toNat /
      hashBytes < cache.length := by
    have low : (uint32At cache[j].toList 0 % UInt32.ofNat cache.length).toNat < cache.length := by
      rw [UInt32.toNat_mod, rows]
      exact Nat.mod_lt _ (by omega)
    have product := Nat.mod_le
      ((uint32At cache[j].toList 0 % UInt32.ofNat cache.length).toNat * 64) (2 ^ 32)
    rw [UInt32.toNat_mul]
    simp only [hashBytes, UInt32.reduceOfNat, UInt32.reduceToNat]
    omega
  simp only [mixRow, List.getElem?_eq_getElem inside, List.getElem?_eq_getElem before, Option.bind_eq_bind,
    Option.bind_some, List.getElem?_eq_getElem other]
  exact ⟨_, rfl, List.length_set⟩

/-- Mixing rows never fails, nor changes their number. -/
theorem mixRows_isSome {rows : Nat} (few : rows < 2 ^ 32) (js : List Nat) (inside : ∀ j ∈ js, j < rows) :
    ∀ cache : List H512, cache.length = rows → ∃ mixed, js.foldlM mixRow cache = some mixed ∧ mixed.length = rows := by
  induction js with
  | nil => exact fun cache length => ⟨cache, rfl, length⟩
  | cons j rest ih =>
    intro cache length
    obtain ⟨next, mixed, kept⟩ := mixRow_isSome (length ▸ few) (length ▸ inside j List.mem_cons_self)
    obtain ⟨last, later, same⟩ := ih (fun other member => inside other (List.mem_cons_of_mem _ member)) next
      (kept.trans length)
    refine ⟨last, ?_, same⟩
    rw [List.foldlM_cons, mixed]
    exact later

theorem mixRound_isSome {cache : List H512} (few : cache.length < 2 ^ 32) :
    ∃ mixed, mixRound cache = some mixed ∧ mixed.length = cache.length :=
  mixRows_isSome few _ (fun _ member => List.mem_range.mp member) cache rfl

theorem mixRounds_isSome (rounds : List Nat) {cache : List H512} (few : cache.length < 2 ^ 32) :
    ∃ mixed, rounds.foldlM (fun cache _ => mixRound cache) cache = some mixed ∧ mixed.length = cache.length := by
  induction rounds generalizing cache with
  | nil => exact ⟨cache, rfl, rfl⟩
  | cons round rest ih =>
    obtain ⟨next, mixed, kept⟩ := mixRound_isSome few
    obtain ⟨last, later, same⟩ := ih (kept ▸ few)
    refine ⟨last, ?_, same.trans kept⟩
    rw [List.foldlM_cons, mixed]
    exact later

theorem generateCache_isSome {words : Nat} (positive : words ≠ 0) (whole : hashWords ∣ words)
    (few : words < 2 ^ 32) (seed : Bytes) :
    ∃ cache, generateCache words seed = some cache ∧ cache.length = words := by
  have filled := length_fillRows (words / hashWords) seed
  have rows : words / hashWords < 2 ^ 32 := (Nat.div_le_self _ _).trans_lt few
  obtain ⟨mixed, made, length⟩ := mixRounds_isSome (List.range cacheRounds) (filled ▸ rows)
  refine ⟨mixed.flatMap fun row => uint32s row.toList, ?_, ?_⟩
  · simp only [generateCache, positive, whole, ne_eq, not_false_eq_true, and_self, guard_true, pure_bind, made,
      Option.bind_eq_bind, Option.bind_some]
    rfl
  · rw [List.length_flatMap, List.map_congr_left fun row _ => length_words row, List.map_const',
      List.sum_replicate_nat, length, filled]
    exact Nat.div_mul_cancel whole

end Cache

/-! The goroutines. -/

section Goroutines

variable {size threads : Nat}

/-- No goroutine's segment overflows. -/
theorem toNat_batch (positive : 0 < threads) (few : size / hashBytes + threads < 2 ^ 32) :
    (batch size threads).toNat = (size + hashBytes * threads - 1) / (hashBytes * threads) ∧
      size / hashBytes ≤ threads * (batch size threads).toNat ∧
      threads * (batch size threads).toNat ≤ size / hashBytes + threads := by
  simp only [hashBytes] at few ⊢
  have upper := Nat.mul_div_le (size + 64 * threads - 1) (64 * threads)
  have lower := Nat.lt_mul_div_succ (size + 64 * threads - 1) (show 0 < 64 * threads by omega)
  rw [Nat.mul_add, Nat.mul_one] at lower
  have assoc : 64 * threads * ((size + 64 * threads - 1) / (64 * threads)) =
      64 * (threads * ((size + 64 * threads - 1) / (64 * threads))) := Nat.mul_assoc _ _ _
  have below : (size + 64 * threads - 1) / (64 * threads) ≤
      threads * ((size + 64 * threads - 1) / (64 * threads)) := Nat.le_mul_of_pos_left _ positive
  have value : (batch size threads).toNat = (size + 64 * threads - 1) / (64 * threads) :=
    UInt32.toNat_ofNat_of_lt' (by simp only [UInt32.size, hashBytes]; omega)
  rw [value]
  omega

theorem toNat_segment (few : size / hashBytes + threads < 2 ^ 32) {id : Nat} (member : id < threads) :
    (first size threads id).toNat = id * (batch size threads).toNat ∧
      (limit size threads id).toNat =
        min (id * (batch size threads).toNat + (batch size threads).toNat) (size / hashBytes) := by
  obtain ⟨-, -, bound⟩ := toNat_batch (Nat.zero_lt_of_lt member) few
  have next : (id + 1) * (batch size threads).toNat ≤ threads * (batch size threads).toNat :=
    Nat.mul_le_mul_right _ member
  rw [Nat.succ_mul] at next
  have fewer : threads < 2 ^ 32 := Nat.lt_of_le_of_lt (Nat.le_add_left _ _) few
  have index : (UInt32.ofNat id).toNat = id := UInt32.toNat_ofNat_of_lt' (by simp only [UInt32.size]; omega)
  have items : (UInt32.ofNat (size / hashBytes)).toNat = size / hashBytes :=
    UInt32.toNat_ofNat_of_lt' (by simp only [UInt32.size]; omega)
  have start : (first size threads id).toNat = id * (batch size threads).toNat := by
    rw [first, UInt32.toNat_mul, index]
    exact Nat.mod_eq_of_lt (by omega)
  have stop : (first size threads id + batch size threads).toNat =
      id * (batch size threads).toNat + (batch size threads).toNat := by
    rw [UInt32.toNat_add, start]
    exact Nat.mod_eq_of_lt (by omega)
  refine ⟨start, ?_⟩
  simp only [limit, gt_iff_lt, UInt32.lt_iff_toNat_lt, items, stop]
  split
  · rw [items]
    omega
  · rw [stop]
    omega

theorem covering_segments (positive : 0 < threads) (few : size / hashBytes + threads < 2 ^ 32) :
    Workers.Covering threads (fun id => (limit size threads id).toNat)
      (fun id => (first size threads id).toNat) (size / hashBytes) where
  inside := by
    intro id member _
    rw [(toNat_segment few member).2]
    exact Nat.min_le_right _ _
  cover := by
    intro i inside
    obtain ⟨-, enough, -⟩ := toNat_batch positive few
    have several : 0 < (batch size threads).toNat := by
      rcases Nat.eq_zero_or_pos (batch size threads).toNat with zero | several
      · rw [zero] at enough
        omega
      · exact several
    have member : i / (batch size threads).toNat < threads :=
      Nat.div_lt_of_lt_mul (by rw [Nat.mul_comm]; omega)
    have low := Nat.div_mul_le_self i (batch size threads).toNat
    have high := Nat.lt_div_mul_add several (a := i)
    refine ⟨_, member, ?_, ?_⟩
    · rwa [(toNat_segment few member).1]
    · rw [(toNat_segment few member).2]
      omega

variable [WideHashing] {cache dataset : List UInt32}

/-- The goroutines as workers: their indices do not overflow. -/
structure Tracks (threads : Nat) (state : Generation) (workers : Workers H512) : Prop where
  slots : state.dataset = workers.slots
  next : ∀ id, (state.index id).toNat = workers.next id

theorem Tracks.turn {f : Nat → H512} {state : Generation} {workers : Workers H512}
    (tracks : Tracks threads state workers) {id : Nat}
    (made : id < threads → state.index id < limit size threads id →
      generateDatasetItem cache (state.index id) = some (f (state.index id).toNat)) :
    Tracks threads ((generation size threads cache).next state id)
      ((Workers.turns f threads fun id => (limit size threads id).toNat).next workers id) := by
  have same := tracks.next id
  by_cases working : id < threads ∧ state.index id < limit size threads id
  · have below : workers.next id < (limit size threads id).toNat := by
      rw [← same]
      exact UInt32.lt_iff_toNat_lt.mp working.2
    rw [Workers.turn_working ⟨working.1, below⟩]
    simp only [generation, working, and_self, if_true, made working.1 working.2]
    refine ⟨by simp only [tracks.slots, same], fun other => ?_⟩
    by_cases here : other = id
    · subst here
      have bound := (limit size threads other).toNat_lt
      simp only [Function.update_self]
      rw [UInt32.toNat_add, same]
      exact Nat.mod_eq_of_lt (show workers.next other + 1 < 2 ^ 32 by omega)
    · simp only [Function.update_of_ne here]
      exact tracks.next other
  · rw [Workers.turn_idle (by rwa [← same, ← UInt32.lt_iff_toNat_lt])]
    simpa only [generation, working, if_false] using tracks

end Goroutines

section Sample

/-- Three goroutines, in turn. -/
def sampleSchedule : List Nat := List.flatten (List.replicate 40 [0, 2, 1])

end Sample

end RainbowBridge.Ethash
