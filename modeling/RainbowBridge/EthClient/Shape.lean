import RainbowBridge.EthClient.Reachable
import Mathlib.Data.Set.Card
import Mathlib.Order.Interval.Finset.Nat

/-! The shape of the canonical map: one interval of numbers that ends at the best
header, in which every hash whose info is stored stands on the parent that the info
names. The lowest hashes may belong to another branch, or be the zero hash below the
first header. -/

namespace RainbowBridge.EthClient

open Lib EthTypes Near

/-- What the loop that replaces past hashes has written, and why it stopped. -/
structure Walked (infos : UnorderedMap H256 HeaderInfo) (canonical after : UnorderedMap Nat H256)
    (hash : H256) (number stop : Nat) : Prop where
  low : stop ≤ number
  start : after number = some hash
  links : ∀ k, stop ≤ k → k < number → ∃ child info, after (k + 1) = some child ∧
    infos child = some info ∧ after k = some info.parentHash
  kept : ∀ k, k < stop ∨ number < k → after k = canonical k
  reason : stop = 0 ∨ canonical stop = after stop ∨ ∃ last, after stop = some last ∧ infos last = none

theorem Walked.here {infos : UnorderedMap H256 HeaderInfo} {canonical : UnorderedMap Nat H256}
    {hash : H256} {number : Nat}
    (reason : number = 0 ∨ canonical number = some hash ∨ infos hash = none) :
    Walked infos canonical (canonical.insert number hash) hash number number where
  low := Nat.le_refl _
  start := by rw [UnorderedMap.insert_apply, if_pos rfl]
  links := by
    intro k lower upper
    omega
  kept := by
    intro k outside
    rw [UnorderedMap.insert_apply, if_neg (by omega)]
  reason := by
    rw [UnorderedMap.insert_apply, if_pos rfl]
    rcases reason with zero | met | gone
    · exact .inl zero
    · exact .inr (.inl met)
    · exact .inr (.inr ⟨hash, rfl, gone⟩)

theorem replacePast_walked (infos : UnorderedMap H256 HeaderInfo) (number : Nat) (hash : H256)
    (canonical : UnorderedMap Nat H256) :
    ∃ stop, Walked infos canonical (replacePast infos number hash canonical) hash number stop := by
  induction number generalizing hash canonical with
  | zero => exact ⟨0, .here (.inl rfl)⟩
  | succ number ih =>
    by_cases met : canonical (number + 1) = some hash
    · rw [replacePast_met met]
      exact ⟨number + 1, .here (.inr (.inl met))⟩
    · cases stored : infos hash with
      | none =>
        rw [replacePast_lost met stored]
        exact ⟨number + 1, .here (.inr (.inr stored))⟩
      | some info =>
        rw [replacePast_on met stored]
        obtain ⟨stop, walked⟩ := ih info.parentHash (canonical.insert (number + 1) hash)
        have low := walked.low
        have top : replacePast infos number info.parentHash (canonical.insert (number + 1) hash)
            (number + 1) = some hash := by
          rw [walked.kept _ (by omega), UnorderedMap.insert_apply, if_pos rfl]
        refine ⟨stop, by omega, top, fun k lower upper => ?_, fun k outside => ?_, ?_⟩
        · by_cases last : k = number
          · rw [last]
            exact ⟨hash, info, top, stored, walked.start⟩
          · exact walked.links k lower (by omega)
        · rw [walked.kept k (by omega), UnorderedMap.insert_apply, if_neg (by omega)]
        · have reason := walked.reason
          rwa [UnorderedMap.insert_apply, if_neg (by omega)] at reason

/-- The hash of an accepted header with the number, or the zero hash right below the
first header. -/
def Placed (first : BlockHeader) (accepted : List BlockHeader) (n : Nat) (hash : H256) : Prop :=
  (∃ header ∈ accepted, header.hash = some hash ∧ header.number.toNat = n) ∨
    hash = zeroBytes 32 ∧ n + 1 = first.number.toNat

theorem Placed.mono {first : BlockHeader} {accepted more : List BlockHeader} (contained : accepted ⊆ more)
    {n : Nat} {hash : H256} (placed : Placed first accepted n hash) : Placed first more n hash := by
  rcases placed with ⟨header, member, rest⟩ | zero
  · exact .inl ⟨header, contained member, rest⟩
  · exact .inr zero

/-- The canonical hashes form one interval up to the best header, linked wherever the
info is still there. -/
structure Outline (first : BlockHeader) (accepted : List BlockHeader)
    (infos : UnorderedMap H256 HeaderInfo) (canonical : UnorderedMap Nat H256) (best : BlockHeader) :
    Prop where
  top : canonical best.number.toNat = best.hash
  above : ∀ n, best.number.toNat < n → canonical n = none
  filled : ∀ n k, (canonical n).isSome → n ≤ k → k ≤ best.number.toNat → (canonical k).isSome
  placed : ∀ n hash, canonical n = some hash → Placed first accepted n hash
  links : ∀ n child older info, canonical (n + 1) = some child → canonical n = some older →
    infos child = some info → info.parentHash = older

section Links

variable {first header : BlockHeader} {accepted : List BlockHeader} {low n : Nat} {store : Store}
  {hash : H256} {info : HeaderInfo} (held : Held first accepted low store)
  (nonzero : ∀ header ∈ accepted, header.hash ≠ some (zeroBytes 32))

include held nonzero

/-- A placed hash with an info is that of a stored header. -/
theorem Placed.number_eq (placed : Placed first accepted n hash) (found : store.infos hash = some info) :
    info.number = n := by
  obtain ⟨other, member, named, -, number, -⟩ := held.of_info found
  rcases placed with ⟨header, inside, named', rfl⟩ | ⟨rfl, -⟩
  · rw [number, held.forest.unique header inside other member (named'.trans named.symm)]
  · exact absurd named (nonzero other member)

/-- The hash that an info names as the parent is placed one below. -/
theorem Placed.parent (placed : Placed first accepted (n + 1) hash)
    (found : store.infos hash = some info) : Placed first accepted n info.parentHash := by
  have level := placed.number_eq held nonzero found
  obtain ⟨header, member, named, -, number, -, parentHash⟩ := held.of_info found
  rcases held.forest.linked header member with rfl | ⟨older, link⟩
  · refine .inr ⟨held.origin info ?_, by omega⟩
    rwa [toNode_hash named]
  · have height := link.number
    have other : header ≠ first := by
      rintro rfl
      exact held.forest.first_alone older link
    exact .inl ⟨older, link.olderMem, by rw [parentHash other, link.hash], by omega⟩

end Links

/-- A placed hash without an info is below all stored headers. -/
theorem Placed.lt_of_lost {first : BlockHeader} {accepted : List BlockHeader} {low n : Nat}
    {store : Store} (held : Held first accepted low store) {hash : H256}
    (placed : Placed first accepted n hash) (lost : store.infos hash = none) : n < low := by
  have base := held.base
  rcases placed with ⟨header, member, named, rfl⟩ | ⟨-, below⟩
  · rw [← toNode_hash named] at lost
    exact held.stored.number_lt (List.mem_map_of_mem member) lost
  · omega

/-- Storing a header under a new hash changes no info of a placed hash. -/
theorem Placed.infos_insert {first header older : BlockHeader} {accepted : List BlockHeader}
    {low n : Nat} {hash newHash : H256} (placed : Placed first accepted n hash)
    (attaches : Attaches accepted low header older) (named : header.hash = some newHash)
    (positive : newHash ≠ zeroBytes 32) (infos : UnorderedMap H256 HeaderInfo) (info : HeaderInfo) :
    infos.insert newHash info hash = infos hash := by
  rw [UnorderedMap.insert_apply, if_neg]
  rintro rfl
  rcases placed with ⟨other, member, named', -⟩ | ⟨zero, -⟩
  · exact attaches.fresh other member (named'.trans named.symm)
  · exact positive zero

/-- A header that is stored without becoming the best one. -/
theorem Outline.insert {first best header older : BlockHeader} {accepted : List BlockHeader} {low : Nat}
    {infos : UnorderedMap H256 HeaderInfo} {canonical : UnorderedMap Nat H256} {hash : H256}
    (outline : Outline first accepted infos canonical best)
    (attaches : Attaches accepted low header older) (named : header.hash = some hash)
    (positive : hash ≠ zeroBytes 32) (info : HeaderInfo) :
    Outline first (accepted ++ [header]) (infos.insert hash info) canonical best where
  top := outline.top
  above := outline.above
  filled := outline.filled
  placed := fun n hash found => (outline.placed n hash found).mono (List.subset_append_left _ _)
  links := by
    intro n child parent info' found below stored
    rw [(outline.placed _ _ found).infos_insert attaches named positive] at stored
    exact outline.links n child parent info' found below stored

/-- Fewer infos ask for fewer links. -/
theorem Outline.mono {first best : BlockHeader} {accepted : List BlockHeader}
    {infos fewer : UnorderedMap H256 HeaderInfo} {canonical : UnorderedMap Nat H256}
    (outline : Outline first accepted infos canonical best)
    (contained : ∀ hash info, fewer hash = some info → infos hash = some info) :
    Outline first accepted fewer canonical best where
  top := outline.top
  above := outline.above
  filled := outline.filled
  placed := outline.placed
  links := fun n child older info found below stored =>
    outline.links n child older info found below (contained child info stored)

/-- The removal of old hashes leaves the recent ones. -/
theorem Outline.collect {first best : BlockHeader} {accepted : List BlockHeader}
    {infos : UnorderedMap H256 HeaderInfo} {canonical : UnorderedMap Nat H256} {threshold : Nat}
    (outline : Outline first accepted infos canonical best) (positive : 0 < threshold) :
    let kept := if best.number.toNat ≥ threshold then
        gcCanonicalChain (best.number.toNat - threshold) canonical else canonical
    Outline first accepted infos kept best ∧
      ∀ n hash, kept n = some hash → best.number.toNat < n + threshold := by
  intro kept
  have remains : ∀ n, best.number.toNat < n + threshold → kept n = canonical n := by
    intro n recent
    simp only [kept]
    split
    · exact gcCanonicalChain_above (by omega) _
    · rfl
  have survives : ∀ n hash, kept n = some hash → canonical n = some hash ∧
      best.number.toNat < n + threshold := by
    intro n hash found
    simp only [kept] at found
    split at found
    · have before := gcCanonicalChain_some found
      refine ⟨before, ?_⟩
      by_contra old
      rw [gcCanonicalChain_none (by omega) fun k lower upper =>
        outline.filled n k (by rw [before]; rfl) lower (by omega)] at found
      cases found
    · exact ⟨found, by omega⟩
  refine ⟨⟨?_, fun n above => ?_, fun n k present lower upper => ?_, fun n hash found => ?_,
    fun n child older info found below stored => ?_⟩, fun n hash found => (survives n hash found).2⟩
  · rw [remains _ (by omega)]
    exact outline.top
  · rw [remains n (by omega)]
    exact outline.above n above
  · obtain ⟨hash, found⟩ := Option.isSome_iff_exists.mp present
    obtain ⟨before, recent⟩ := survives n hash found
    rw [remains k (by omega)]
    exact outline.filled n k (by rw [before]; rfl) lower upper
  · exact outline.placed n hash (survives n hash found).1
  · exact outline.links n child older info (survives _ _ found).1 (survives _ _ below).1 stored

section Update

variable {first best header older : BlockHeader} {accepted : List BlockHeader} {low stop : Nat}
  {client : Client} {hash : H256} {info : HeaderInfo} {canonical replaced : UnorderedMap Nat H256}
  (attaches : Attaches accepted low header older)
  (walked : Walked (client.infos.insert hash info) (cleared canonical (toNode header)) replaced
    header.parentHash older.number.toNat stop)

include attaches walked

theorem walked_below {n : Nat} (below : n < stop) : replaced n = canonical n := by
  have low := walked.low
  have number := attaches.number
  rw [walked.kept n (.inl below)]
  exact cleared_below (show n < header.number.toNat by omega)

theorem walked_above {n : Nat} (above : header.number.toNat < n) : replaced n = none := by
  have number := attaches.number
  rw [walked.kept n (.inr (by omega))]
  exact cleared_above above

variable (named : header.hash = some hash)

include named

theorem walked_top : replaced header.number.toNat = some hash := by
  have number := attaches.number
  rw [walked.kept _ (.inr (by omega)), ← toNode_hash named]
  exact cleared_top canonical (toNode header)

variable (held : Held first accepted low client.store)
  (nonzero : ∀ header ∈ accepted, header.hash ≠ some (zeroBytes 32))
  (positive : hash ≠ zeroBytes 32)

include held nonzero positive

/-- What the loop writes is placed. -/
theorem walked_placed {n : Nat} (lower : stop ≤ n) (upper : n ≤ older.number.toNat) :
    ∃ found, replaced n = some found ∧ Placed first accepted n found := by
  obtain ⟨level, same⟩ : ∃ level, older.number.toNat = n + level := ⟨_, (Nat.add_sub_of_le upper).symm⟩
  induction level generalizing n with
  | zero =>
    refine ⟨header.parentHash, ?_, .inl ⟨older, attaches.parent, attaches.hash, same⟩⟩
    rw [show n = older.number.toNat from same.symm]
    exact walked.start
  | succ level ih =>
    obtain ⟨above, here, placed⟩ : ∃ found, replaced (n + 1) = some found ∧
      Placed first accepted (n + 1) found := ih (by omega) (by omega) (by omega)
    obtain ⟨child, found, present, stored, below⟩ := walked.links n lower (by omega)
    obtain rfl := Option.some.inj (here.symm.trans present)
    rw [placed.infos_insert attaches named positive] at stored
    exact ⟨_, below, placed.parent held nonzero stored⟩

variable (outline : Outline first accepted client.infos canonical best)

include outline

/-- Below where the loop stops nothing is missing, for it never stops above the old
best header. -/
theorem walked_stop (lowBest : low ≤ best.number.toNat) (some : 0 < stop) :
    stop ≤ best.number.toNat := by
  have low := walked.low
  have number := attaches.number
  obtain ⟨found, here, placed⟩ :=
    walked_placed attaches walked named held nonzero positive (Nat.le_refl stop) low
  rcases walked.reason with zero | met | ⟨last, present, gone⟩
  · omega
  · rw [cleared_below (show stop < header.number.toNat by omega), here] at met
    by_contra higher
    rw [outline.above stop (by omega)] at met
    cases met
  · obtain rfl := Option.some.inj (here.symm.trans present)
    rw [placed.infos_insert attaches named positive] at gone
    have bound := placed.lt_of_lost held gone
    omega

omit held nonzero in
/-- The replaced hashes are linked. -/
theorem walked_links (parentHash : info.parentHash = header.parentHash) {n : Nat}
    {child parent : H256} {found : HeaderInfo} (here : replaced (n + 1) = some child)
    (under : replaced n = some parent) (stored : client.infos.insert hash info child = some found) :
    found.parentHash = parent := by
  have number := attaches.number
  have bound := walked.low
  rcases Nat.lt_trichotomy n older.number.toNat with lower | rfl | upper
  · by_cases written : stop ≤ n
    · obtain ⟨child', info', present, stored', below⟩ := walked.links n written lower
      obtain rfl := Option.some.inj (here.symm.trans present)
      obtain rfl := Option.some.inj (stored.symm.trans stored')
      exact Option.some.inj (below.symm.trans under)
    · rw [walked_below attaches walked (by omega)] at under
      have old : canonical (n + 1) = some child ∨ client.infos.insert hash info child = none := by
        by_cases last : n + 1 = stop
        · rcases walked.reason with zero | met | ⟨lost, present, gone⟩
          · omega
          · rw [cleared_below (show stop < header.number.toNat by omega), ← last, here] at met
            exact .inl met
          · rw [last, present] at here
            rw [← Option.some.inj here]
            exact .inr gone
        · rw [walked_below attaches walked (by omega)] at here
          exact .inl here
      rcases old with present | gone
      · rw [(outline.placed _ _ present).infos_insert attaches named positive] at stored
        exact outline.links n child parent found present under stored
      · rw [gone] at stored
        cases stored
  · rw [← number, walked_top attaches walked named] at here
    rw [← Option.some.inj here, UnorderedMap.insert_apply, if_pos rfl] at stored
    rw [← Option.some.inj stored, parentHash]
    exact Option.some.inj (walked.start.symm.trans under)
  · rw [walked_above attaches walked (by omega)] at here
    cases here

/-- The canonical map under a new best header. -/
theorem outline_replaced (lowBest : low ≤ best.number.toNat)
    (parentHash : info.parentHash = header.parentHash) :
    Outline first (accepted ++ [header]) (client.infos.insert hash info) replaced header := by
  have number := attaches.number
  have contained : accepted ⊆ accepted ++ [header] := List.subset_append_left _ _
  have inside : ∀ {n}, stop ≤ n → n ≤ older.number.toNat →
      ∃ found, replaced n = some found ∧ Placed first accepted n found :=
    walked_placed attaches walked named held nonzero positive
  have top := walked_top attaches walked named
  refine ⟨top.trans named.symm, fun n above => walked_above attaches walked above,
    fun n k present lower upper => ?_, fun n found here => ?_, fun n child parent info' =>
      walked_links attaches walked named positive outline parentHash⟩
  · by_cases last : k = header.number.toNat
    · rw [last, top]
      rfl
    · by_cases written : stop ≤ k
      · obtain ⟨found, here, -⟩ := inside written (by omega)
        rw [here]
        rfl
      · rw [walked_below attaches walked (by omega)] at present ⊢
        have stopped := walked_stop attaches walked named held nonzero positive outline lowBest (by omega)
        exact outline.filled n k present lower (by omega)
  · rcases Nat.lt_trichotomy n header.number.toNat with lower | rfl | upper
    · by_cases written : stop ≤ n
      · obtain ⟨found', here', placed⟩ := inside written (by omega)
        obtain rfl := Option.some.inj (here.symm.trans here')
        exact placed.mono contained
      · rw [walked_below attaches walked (by omega)] at here
        exact (outline.placed n found here).mono contained
    · rw [top] at here
      exact .inl ⟨header, by simp, by rw [named, Option.some.inj here], rfl⟩
    · rw [walked_above attaches walked upper] at here
      cases here

end Update

theorem gcHeaders_infos {top : Nat} {store : Store} {hash : H256} {info : HeaderInfo}
    (found : (gcHeaders top store).infos hash = some info) : store.infos hash = some info := by
  have dropped : ∀ {number hashes} {store : Store},
      (store.dropNumber number hashes).infos hash = some info → store.infos hash = some info := by
    intro number hashes store found
    rw [dropNumber_infos] at found
    split at found
    · cases found
    · exact found
  induction top generalizing store with
  | zero =>
    rw [gcHeaders] at found
    split at found
    · exact found
    · exact dropped found
  | succ top ih =>
    rw [gcHeaders] at found
    split at found
    · exact found
    · exact dropped (ih found)

/-- The canonical map of a client, with hashes of recent headers only. -/
structure Shaped (first : BlockHeader) (accepted : List BlockHeader) (client : Client)
    (best : BlockHeader) : Prop where
  outline : Outline first accepted client.infos client.canonicalHeaderHashes best
  recent : ∀ n hash, client.canonicalHeaderHashes n = some hash →
    best.number.toNat < n + client.hashesGcThreshold

namespace Shaped

variable {first best header older : BlockHeader} {accepted : List BlockHeader} {client : Client}
  {low : Nat} {hash : H256} {bestInfo parentInfo : HeaderInfo}

theorem start {first : BlockHeader} {client : Client} {hash : H256} (named : first.hash = some hash)
    (canonical : client.canonicalHeaderHashes =
      UnorderedMap.insert (fun _ => none) first.number.toNat hash)
    (positive : 0 < client.hashesGcThreshold) : Shaped first [first] client first := by
  have only : ∀ n found, client.canonicalHeaderHashes n = some found →
      n = first.number.toNat ∧ found = hash := by
    intro n found here
    rw [canonical, UnorderedMap.insert_apply] at here
    split at here
    · exact ⟨by assumption, (Option.some.inj here).symm⟩
    · cases here
  refine ⟨⟨?_, fun n above => ?_, fun n k present lower upper => ?_, fun n found here => ?_,
    fun n child parent info here under _ => ?_⟩, fun n found here => ?_⟩
  · rw [canonical, UnorderedMap.insert_apply, if_pos rfl, named]
  · rw [canonical, UnorderedMap.insert_apply, if_neg (by omega)]
  · obtain ⟨found, here⟩ := Option.isSome_iff_exists.mp present
    obtain ⟨rfl, -⟩ := only n found here
    rwa [Nat.le_antisymm upper lower]
  · obtain ⟨rfl, rfl⟩ := only n found here
    exact .inl ⟨first, by simp, named, rfl⟩
  · have level := (only _ _ here).1
    have level' := (only _ _ under).1
    omega
  · rw [(only n found here).1]
    omega

/-- The keys of the canonical map. -/
theorem interval {first best : BlockHeader} {accepted : List BlockHeader} {client : Client}
    (shaped : Shaped first accepted client best) (hashed : best.hash.isSome) :
    ∃ lowest ≤ best.number.toNat, best.number.toNat < lowest + client.hashesGcThreshold ∧
      ∀ n, (client.canonicalHeaderHashes n).isSome ↔ lowest ≤ n ∧ n ≤ best.number.toNat := by
  have top : (client.canonicalHeaderHashes best.number.toNat).isSome := by rwa [shaped.outline.top]
  have present : ∃ n, (client.canonicalHeaderHashes n).isSome := ⟨_, top⟩
  obtain ⟨hash, found⟩ := Option.isSome_iff_exists.mp (Nat.find_spec present)
  refine ⟨Nat.find present, Nat.find_min' present top, shaped.recent _ hash found, fun n => ?_⟩
  constructor
  · intro here
    refine ⟨Nat.find_min' present here, ?_⟩
    by_contra above
    rw [shaped.outline.above n (by omega)] at here
    cases here
  · rintro ⟨lower, upper⟩
    exact shaped.outline.filled _ n (Nat.find_spec present) lower upper

variable (shaped : Shaped first accepted client best) (kept : Kept first accepted client best low)
  (attaches : Attaches accepted low header older)
  (accepts : Accepts client header hash bestInfo parentInfo)
  (nonzero : ∀ other ∈ accepted ++ [header], other.hash ≠ some (zeroBytes 32))

include shaped kept attaches accepts nonzero

omit kept in
theorem insertHeader (worse : client.wouldBeBest header = false) :
    Shaped first (accepted ++ [header]) (client.recorded header hash bestInfo parentInfo) best := by
  have positive : hash ≠ zeroBytes 32 := by
    rintro rfl
    exact nonzero header (by simp) accepts.named
  rw [Client.recorded, if_neg (by rw [worse]; decide)]
  exact ⟨shaped.outline.insert attaches accepts.named positive _, shaped.recent⟩

theorem updateCanonical (better : client.wouldBeBest header = true) (some : 0 < client.hashesGcThreshold) :
    Shaped first (accepted ++ [header]) (client.recorded header hash bestInfo parentInfo) header := by
  have positive : hash ≠ zeroBytes 32 := by
    rintro rfl
    exact nonzero header (by simp) accepts.named
  have above : ∀ n, bestInfo.number < n → client.canonicalHeaderHashes n = none := by
    rw [kept.bestNumber accepts]
    exact shaped.outline.above
  obtain ⟨stop, walked⟩ := replacePast_walked (client.infos.insert hash (childInfo parentInfo header))
    older.number.toNat header.parentHash (cleared client.canonicalHeaderHashes (toNode header))
  rw [← canonicalUnder_recorded attaches accepts.named above] at walked
  have outline := outline_replaced attaches walked accepts.named kept.held
    (fun other member => nonzero other (List.mem_append_left _ member)) positive shaped.outline kept.low
    rfl
  obtain ⟨collected, recent⟩ := outline.collect some
  rw [Client.recorded, if_pos better]
  refine ⟨collected.mono fun other info found => ?_, recent⟩
  simp only [Client.updateCanonical] at found
  split at found
  · exact gcHeaders_infos found
  · exact found

end Shaped

variable [Hashing] {crate : RlpCrate} {eip1559 : Bool} {ethash : EthashCrate}

theorem Sound.nonzero {submitted : Set Bytes} {archive : Archive} {best : BlockHeader} {low : Nat}
    (sound : Sound crate eip1559 submitted archive best low)
    (nonzero : ∀ raw ∈ submitted, keccak256 raw ≠ zeroBytes 32) :
    ∀ header ∈ archive.accepted, header.hash ≠ some (zeroBytes 32) := by
  intro header member zero
  obtain ⟨raw, given, decoded⟩ := sound.origin header member
  rw [hash_of_decode decoded] at zero
  exact nonzero raw given (Option.some.inj zero)

/-- A step keeps the shape of the canonical map. -/
theorem Shaped.next {submitted : Set Bytes} {archive after : Archive} {best : BlockHeader} {low : Nat}
    (sound : Sound crate eip1559 submitted archive best low)
    (nonzero : ∀ raw ∈ submitted, keccak256 raw ≠ zeroBytes 32) {threshold : Nat}
    (positive : 0 < threshold)
    (shaped : Shaped archive.first archive.accepted archive.client best ∧
      archive.client.hashesGcThreshold = threshold)
    (step : Step crate eip1559 submitted archive low after) :
    ∃ best low, Sound crate eip1559 submitted after best low ∧
      Shaped after.first after.accepted after.client best ∧
        after.client.hashesGcThreshold = threshold := by
  obtain ⟨shaped, rfl⟩ := shaped
  cases step with
  | paused mask => exact ⟨best, low, sound.pause mask, ⟨shaped.outline, shaped.recent⟩, rfl⟩
  | @added _ header _ hash bestInfo parentInfo given decoded attaches accepts =>
    obtain ⟨-, same, -⟩ := recorded_settings archive.client header hash bestInfo parentInfo
    cases better : archive.client.wouldBeBest header with
    | true =>
      have sound' := sound.updateCanonical given decoded attaches accepts better
      exact ⟨_, _, sound', shaped.updateCanonical sound.kept attaches accepts (sound'.nonzero nonzero)
        better positive, same⟩
    | false =>
      have sound' := sound.insertHeader given decoded attaches accepts better
      exact ⟨_, _, sound', shaped.insertHeader attaches accepts (sound'.nonzero nonzero) better, same⟩

theorem shaped_open {config : Config} {archive : Archive}
    (opened : openArchive crate eip1559 config = some archive)
    (positive : 0 < config.hashesGcThreshold) :
    Shaped archive.first archive.accepted archive.client archive.first ∧
      archive.client.hashesGcThreshold = config.hashesGcThreshold := by
  simp only [openArchive, init, Option.bind_eq_bind, Option.bind_eq_some_iff, Option.pure_def,
    Option.some.injEq] at opened
  obtain ⟨client, ⟨-, -, header, decoded, hash, named, rfl⟩, first, decoded', rfl⟩ := opened
  obtain rfl := Option.some.inj (decoded.symm.trans decoded')
  exact ⟨Shaped.start named rfl positive, rfl⟩

/-- In every reached state the keys of the canonical map are an interval of recent
numbers up to that of the best header, and every hash whose info is stored stands on
the parent that the info names. -/
theorem canonical_shape (crate : RlpCrate) (eip1559 : Bool) (ethash : EthashCrate) (config : Config)
    (archive : Archive) (calls : List Call)
    (opened : openArchive crate eip1559 config = some archive)
    (permissionless : Permissionless config calls) (positive : 0 < config.hashesGcThreshold)
    (nonzero : ∀ raw ∈ submittedBy config calls, keccak256 raw ≠ zeroBytes 32) :
    let client := ((archiveMachine crate eip1559 ethash).run archive calls).client
    ∃ bestInfo, client.infos client.bestHeaderHash = some bestInfo ∧
      client.canonicalHeaderHashes bestInfo.number = some client.bestHeaderHash ∧
      (∀ n, bestInfo.number < n → client.canonicalHeaderHashes n = none) ∧
      (∃ lowest ≤ bestInfo.number, bestInfo.number < lowest + config.hashesGcThreshold ∧
        ∀ n, (client.canonicalHeaderHashes n).isSome ↔ lowest ≤ n ∧ n ≤ bestInfo.number) ∧
      { n | (client.canonicalHeaderHashes n).isSome }.ncard ≤ config.hashesGcThreshold ∧
      ∀ n hash older info, client.canonicalHeaderHashes (n + 1) = some hash →
        client.canonicalHeaderHashes n = some older → client.infos hash = some info →
        info.parentHash = older ∧ info.number = n + 1 := by
  intro client
  rw [← List.append_nil calls] at permissionless nonzero
  obtain ⟨best, low, sound, shaped, threshold⟩ := run_sound opened permissionless
    (fun archive best _ => Shaped archive.first archive.accepted archive.client best ∧
      archive.client.hashesGcThreshold = config.hashesGcThreshold)
    (shaped_open opened positive)
    fun sound shaped step => Shaped.next sound nonzero positive shaped step
  obtain ⟨bestInfo, found, number, -⟩ := sound.kept.info_best
  obtain ⟨lowest, below, recent, keys⟩ := shaped.interval (by rw [sound.kept.hash]; rfl)
  rw [threshold, ← number] at recent
  rw [← number] at below keys
  have set : { n | (client.canonicalHeaderHashes n).isSome } = Finset.Icc lowest bestInfo.number := by
    ext n
    simpa using keys n
  refine ⟨bestInfo, found, ?_, ?_, ⟨lowest, below, recent, keys⟩, ?_, ?_⟩
  · rw [number, ← sound.kept.hash]
    exact shaped.outline.top
  · rw [number]
    exact shaped.outline.above
  · rw [set, Set.ncard_coe_finset, Nat.card_Icc]
    omega
  · intro n hash older info here under stored
    exact ⟨shaped.outline.links n hash older info here under stored,
      (shaped.outline.placed _ _ here).number_eq sound.kept.held (sound.nonzero nonzero) stored⟩

omit [Hashing] in
/-- The canonical chain has moved to the right branch. -/
theorem canonical_shape_sample :
    letI := Hashing.platform
    ∃ archive, openArchive .reference true sampleConfig = some archive ∧
      let client := ((archiveMachine .reference true sampleEthash).run archive forkedCalls).client
      client.bestHeaderHash = rightHash 3 ∧ client.canonicalHeaderHashes 2 = some (rightHash 2) ∧
      (∃ info, client.infos (rightHash 3) = some info ∧ info.parentHash = rightHash 2 ∧ info.number = 3) ∧
      { n | (client.canonicalHeaderHashes n).isSome }.ncard ≤ 100 := by
  have among : [leftBlock 1, rightBlock 1, leftBlock 2, rightBlock 2, rightBlock 3] ⊆ sampleBlocks := by
    simp [sampleBlocks]
  have permissionless := permissionless_sample among
  rw [← sampleDigests_right] at permissionless ⊢
  let := Hashing.lookup sampleDigests
  have computed : (openArchive .reference true sampleConfig).map (fun archive =>
      let client := ((archiveMachine .reference true sampleEthash).run archive forkedCalls).client
      (client.canonicalHeaderHashes 3, client.canonicalHeaderHashes 2, client.bestHeaderHash)) =
      some (some (rightHash 3), some (rightHash 2), rightHash 3) := by
    decide +kernel
  have digests : ∀ block ∈ firstBlock :: sampleBlocks, keccak256 block.2 ≠ zeroBytes 32 := by
    decide +kernel
  obtain ⟨archive, opened, results⟩ := Option.map_eq_some_iff.mp computed
  simp only [Prod.mk.injEq] at results
  obtain ⟨top, under, best⟩ := results
  have nonzero : ∀ raw ∈ submittedBy sampleConfig forkedCalls, keccak256 raw ≠ zeroBytes 32 := by
    rintro raw (first | ⟨submission, member, same⟩)
    · have here := digests firstBlock List.mem_cons_self
      rwa [← show raw = firstBlock.2 from first] at here
    · obtain ⟨block, inside, call⟩ := List.mem_map.mp member
      rw [submit, Call.addBlockHeader.injEq] at call
      have here := digests block (List.mem_cons_of_mem _ (among inside))
      rwa [show raw = block.2 by rw [same, ← call]]
  obtain ⟨bestInfo, found, -, -, -, count, links⟩ := canonical_shape .reference true sampleEthash sampleConfig
    archive forkedCalls opened permissionless (by decide) nonzero
  rw [best] at found
  exact ⟨archive, opened, best, under, ⟨bestInfo, found, links 2 _ _ bestInfo top under found⟩, count⟩

end RainbowBridge.EthClient
