import RainbowBridge.EthClient.Reachable
import Mathlib.Data.Set.Finite.Lemmas

/-! How the four maps of the client represent the headers it stores: all accepted
headers from some number up to the highest one, each with its parent if that number
is not reached yet. -/

namespace RainbowBridge.EthClient

open Lib EthTypes Near

/-- Below a header there are headers of every number down to the first one. -/
theorem Forest.exists_at {first header : BlockHeader} {accepted : List BlockHeader}
    (forest : Forest first accepted) (member : header ∈ accepted) {n : Nat}
    (above : first.number.toNat ≤ n) (below : n ≤ header.number.toNat) :
    ∃ older ∈ accepted, older.number.toNat = n := by
  obtain ⟨level, same⟩ : ∃ level, header.number.toNat = n + level := ⟨_, (Nat.add_sub_of_le below).symm⟩
  induction level generalizing header with
  | zero => exact ⟨header, member, same⟩
  | succ level ih =>
    rcases forest.linked header member with rfl | ⟨older, link⟩
    · omega
    · have number := link.number
      exact ih link.olderMem (by omega) (by omega)

theorem Forest.exists_highest {first : BlockHeader} {accepted : List BlockHeader}
    (forest : Forest first accepted) :
    ∃ top ∈ accepted, ∀ header ∈ accepted, header.number.toNat ≤ top.number.toNat :=
  Set.exists_max_image { header | header ∈ accepted } (fun header => header.number.toNat)
    (List.finite_toSet accepted) ⟨first, forest.root⟩

namespace Held

variable {first : BlockHeader} {accepted : List BlockHeader} {low : Nat} {store : Store}
  (held : Held first accepted low store)

include held

theorem infos_iff (hash : H256) : (store.infos hash).isSome ↔
    ∃ header ∈ accepted, header.hash = some hash ∧ low ≤ header.number.toNat := by
  constructor
  · intro present
    obtain ⟨info, found⟩ := Option.isSome_iff_exists.mp present
    obtain ⟨header, member, named, lower, -⟩ := held.of_info found
    exact ⟨header, member, named, lower⟩
  · rintro ⟨header, member, named, lower⟩
    obtain ⟨info, found, -⟩ := held.info member lower
    rw [← toNode_hash named, found]
    rfl

theorem headers_iff (hash : H256) : (store.headers hash).isSome ↔
    ∃ header ∈ accepted, header.hash = some hash ∧ low ≤ header.number.toNat := by
  constructor
  · intro present
    obtain ⟨header, found⟩ := Option.isSome_iff_exists.mp present
    obtain ⟨member, named, lower⟩ := held.of_header found
    exact ⟨header, member, named, lower⟩
  · rintro ⟨header, member, named, lower⟩
    rw [← toNode_hash named, held.headers header member lower]
    rfl

theorem known_iff (n : Nat) (hash : H256) :
    hash ∈ store.knownHashes n ↔ ∃ info, store.infos hash = some info ∧ info.number = n := by
  rw [held.stored.known]
  constructor
  · rintro ⟨lower, node, member, rfl, rfl⟩
    obtain ⟨info, found, number, -⟩ := held.stored.infos node member lower
    exact ⟨info, found, number⟩
  · rintro ⟨info, found, rfl⟩
    obtain ⟨header, member, named, lower, number, -⟩ := held.of_info found
    exact ⟨by omega, toNode header, List.mem_map_of_mem member, toNode_hash named, number.symm⟩

theorem numbers_iff {top : BlockHeader} (member : top ∈ accepted)
    (highest : ∀ header ∈ accepted, header.number.toNat ≤ top.number.toNat) (n : Nat) :
    (store.allHeaderHashes n).isSome ↔ low ≤ n ∧ n ≤ top.number.toNat := by
  rw [← Option.ne_none_iff_isSome, ne_eq, held.stored.numbers]
  simp only [not_or, Nat.not_lt, not_forall]
  refine and_congr_right fun _ => ⟨?_, fun below => ⟨_, List.mem_map_of_mem member, below⟩⟩
  rintro ⟨node, inside, below⟩
  obtain ⟨header, known, rfl⟩ := List.mem_map.mp inside
  exact Nat.le_trans below (highest header known)

/-- A stored list has the hashes of the headers with its number, at least one. -/
theorem list_ne_nil {n : Nat} {hashes : List H256} (found : store.allHeaderHashes n = some hashes) :
    hashes ≠ [] := by
  obtain ⟨top, member, highest⟩ := held.forest.exists_highest
  obtain ⟨lower, upper⟩ := (held.numbers_iff member highest n).mp (by rw [found]; rfl)
  obtain ⟨older, inside, rfl⟩ :=
    held.forest.exists_at member (Nat.le_trans held.base lower) upper
  have known := (held.stored.known _ _).mpr ⟨lower, toNode older, List.mem_map_of_mem inside, rfl, rfl⟩
  rw [Store.knownHashes, found] at known
  exact List.ne_nil_of_mem known

/-- A stored header above the lowest number has its parent below it. -/
theorem parent_stored {hash : H256} {header : BlockHeader} {info : HeaderInfo}
    (found : store.headers hash = some header) (found' : store.infos hash = some info)
    (above : low < info.number) :
    ∃ parent parentInfo, store.headers header.parentHash = some parent ∧
      store.infos header.parentHash = some parentInfo ∧ parentInfo.number + 1 = info.number ∧
      info.totalDifficulty = parentInfo.totalDifficulty + header.difficulty.toNat := by
  obtain ⟨member, named, lower⟩ := held.of_header found
  obtain ⟨header', member', named', -, number, total, -⟩ := held.of_info found'
  obtain rfl := held.forest.unique header member header' member' (named.trans named'.symm)
  rcases held.forest.linked header member with rfl | ⟨older, link⟩
  · have base := held.base
    omega
  · have height := link.number
    obtain ⟨parentInfo, present, parentNumber, sum⟩ := held.info link.olderMem (by omega)
    have stored := held.headers older link.olderMem (by omega)
    rw [toNode_hash link.hash] at present stored
    exact ⟨older, parentInfo, stored, present, by omega,
      held.forest.total_unique total (.child link sum)⟩

end Held

theorem mem_knownHashes_iff {store : Store} {n : Nat} {hash : H256} :
    hash ∈ store.knownHashes n ↔ ∃ hashes, store.allHeaderHashes n = some hashes ∧ hash ∈ hashes := by
  cases found : store.allHeaderHashes n with
  | none => simp [Store.knownHashes, found]
  | some hashes => simp [Store.knownHashes, found]

variable [Hashing]

/-- A header that was accepted before, stored or not, is refused. -/
theorem Sound.refused_again {crate : RlpCrate} {eip1559 : Bool} {ethash : EthashCrate}
    {submitted : Set Bytes} {archive : Archive} {best header : BlockHeader} {low : Nat}
    (sound : Sound crate eip1559 submitted archive best low) (free : CollisionFree keccak256 submitted)
    {call : Submission} (given : call.blockHeader ∈ submitted)
    (decoded : BlockHeader.decode crate eip1559 call.blockHeader = some header)
    (known : header ∈ archive.accepted) :
    (archiveMachine crate eip1559 ethash).next archive (.addBlockHeader call) = archive := by
  cases success : archive.client.addBlockHeader crate eip1559 ethash call.env call.blockHeader
      call.dagNodes with
  | none => simp only [archiveMachine, success]
  | some after =>
    obtain ⟨header', prev, decoded', parent, number, recorded⟩ := parent_of_success sound.anyone success
    obtain rfl := Option.some.inj (decoded.symm.trans decoded')
    obtain ⟨hash, _, _, accepts, -⟩ := recordHeader_eq_some.mp recorded
    have attaches := sound.attaches free given decoded parent number accepts.named accepts.unknown
    exact absurd rfl (attaches.fresh header known)

/-- In every reached state the maps represent one set of headers, closed under parents
down to its lowest number; and a header is never accepted twice. -/
theorem store_representation (crate : RlpCrate) (eip1559 : Bool) (ethash : EthashCrate) (config : Config)
    (archive : Archive) (calls : List Call) (call : Call)
    (opened : openArchive crate eip1559 config = some archive)
    (permissionless : Permissionless config (calls ++ [call])) :
    let reached := (archiveMachine crate eip1559 ethash).run archive calls
    let client := reached.client
    (∀ hash, (client.headers hash).isSome ↔ (client.infos hash).isSome) ∧
    (∀ hash, (client.infos hash).isSome ↔
      ∃ n hashes, client.allHeaderHashes n = some hashes ∧ hash ∈ hashes) ∧
    (∀ n m hashes hashes' hash, client.allHeaderHashes n = some hashes →
      client.allHeaderHashes m = some hashes' → hash ∈ hashes → hash ∈ hashes' → n = m) ∧
    (∀ n hashes, client.allHeaderHashes n = some hashes → hashes ≠ [] ∧ hashes.Nodup) ∧
    (∀ n hash, (∃ hashes, client.allHeaderHashes n = some hashes ∧ hash ∈ hashes) ↔
      ∃ info, client.infos hash = some info ∧ info.number = n) ∧
    (∃ low max, low ≤ max ∧ (∀ n, (client.allHeaderHashes n).isSome ↔ low ≤ n ∧ n ≤ max) ∧
      ∀ hash header info, client.headers hash = some header → client.infos hash = some info →
        low < info.number → ∃ parent parentInfo, client.headers header.parentHash = some parent ∧
          client.infos header.parentHash = some parentInfo ∧ parentInfo.number + 1 = info.number ∧
          info.totalDifficulty = parentInfo.totalDifficulty + header.difficulty.toNat) ∧
    reached.accepted.Nodup ∧
    ∀ submission header, call = .addBlockHeader submission →
      BlockHeader.decode crate eip1559 submission.blockHeader = some header →
      header ∈ reached.accepted → (archiveMachine crate eip1559 ethash).next reached call = reached := by
  intro reached client
  obtain ⟨best, low, sound⟩ : ∃ best low, Sound crate eip1559 _ reached best low :=
    sound_run opened permissionless
  have held : Held reached.first reached.accepted low client.store := sound.kept.held
  have known : ∀ n hash, (∃ hashes, client.allHeaderHashes n = some hashes ∧ hash ∈ hashes) ↔
      ∃ info, client.infos hash = some info ∧ info.number = n := by
    intro n hash
    exact mem_knownHashes_iff.symm.trans (held.known_iff n hash)
  obtain ⟨top, member, highest⟩ := held.forest.exists_highest
  refine ⟨fun hash => ?_, fun hash => ?_, fun n m hashes hashes' hash found found' inside inside' => ?_,
    fun n hashes found => ⟨held.list_ne_nil found, ?_⟩, known, ?_, held.forest.nodup, ?_⟩
  · exact (held.headers_iff hash).trans (held.infos_iff hash).symm
  · constructor
    · intro present
      obtain ⟨info, found⟩ := Option.isSome_iff_exists.mp present
      exact ⟨info.number, (known _ hash).mpr ⟨info, found, rfl⟩⟩
    · rintro ⟨n, listed⟩
      obtain ⟨info, found, -⟩ := (known n hash).mp listed
      rw [found]
      rfl
  · obtain ⟨info, present, rfl⟩ := (known n hash).mp ⟨hashes, found, inside⟩
    obtain ⟨info', present', rfl⟩ := (known m hash).mp ⟨hashes', found', inside'⟩
    rw [Option.some.inj (present.symm.trans present')]
  · have distinct := held.distinct n
    rwa [Store.knownHashes, show client.store.allHeaderHashes n = some hashes from found] at distinct
  · have bound := highest best sound.kept.member
    have lower := sound.kept.low
    exact ⟨low, top.number.toNat, by omega, held.numbers_iff member highest,
      fun hash header info => held.parent_stored⟩
  · rintro submission header rfl decoded accepted
    exact sound.refused_again permissionless.free (mem_submittedBy (by simp)) decoded accepted

deriving instance DecidableEq for HeaderFields

deriving instance DecidableEq for BlockHeader

omit [Hashing] in
/-- After a change of branches and a collection, a header that is known already comes
again. -/
theorem store_representation_sample :
    letI := Hashing.platform
    ∃ archive, openArchive .reference true sampleConfig = some archive ∧
      let reached := (archiveMachine .reference true sampleEthash).run archive forkedCalls
      reached.client.bestHeaderHash = rightHash 3 ∧ reached.accepted.length = 6 ∧
      (reached.client.headers (rightHash 2)).isSome ∧ (reached.client.headers (rightHash 1)).isSome = false ∧
      reached.accepted.Nodup ∧
      (archiveMachine .reference true sampleEthash).next reached (submit (rightBlock 2)) = reached := by
  have permissionless := permissionless_sample
    (show [leftBlock 1, rightBlock 1, leftBlock 2, rightBlock 2, rightBlock 3, rightBlock 2] ⊆ sampleBlocks by
      simp [sampleBlocks])
  rw [← sampleDigests_right] at permissionless ⊢
  let := Hashing.lookup sampleDigests
  have computed : (openArchive .reference true sampleConfig).map (fun archive =>
      let reached := (archiveMachine .reference true sampleEthash).run archive forkedCalls
      (reached.client.bestHeaderHash, reached.accepted.length, (reached.client.infos (rightHash 2)).isSome,
        (reached.client.infos (rightHash 1)).isSome)) = some (rightHash 3, 6, true, false) := by
    decide +kernel
  have known : (openArchive .reference true sampleConfig).map (fun archive =>
      let reached := (archiveMachine .reference true sampleEthash).run archive forkedCalls
      (BlockHeader.decode .reference true (rightBlock 2).2).map fun header =>
        decide (header ∈ reached.accepted)) = some (some true) := by
    decide +kernel
  obtain ⟨archive, opened, results⟩ := Option.map_eq_some_iff.mp computed
  simp only [Prod.mk.injEq] at results
  obtain ⟨best, size, present, absent⟩ := results
  rw [opened, Option.map_some, Option.some.injEq] at known
  obtain ⟨header, decoded, accepted⟩ := Option.map_eq_some_iff.mp known
  obtain ⟨keys, -, -, -, -, -, distinct, refused⟩ := store_representation .reference true sampleEthash
    sampleConfig archive forkedCalls (submit (rightBlock 2)) opened permissionless
  refine ⟨archive, opened, best, size, (keys _).mpr present, ?_, distinct,
    refused _ header rfl decoded (of_decide_eq_true accepted)⟩
  rw [Bool.eq_false_iff, Ne, keys, absent]
  decide

end RainbowBridge.EthClient
