import RainbowBridge.EthClient.Loops

/-! The headers that are still stored are the accepted ones from some number on:
storing a header and collecting old ones keep it so. -/

namespace RainbowBridge.EthClient

open Lib EthTypes Near

/-- The store has the accepted headers with numbers from `low` on, and no others. -/
structure Stored (first : Node) (accepted : List Node) (low : Nat) (store : Store) : Prop where
  known : ∀ n hash, hash ∈ store.knownHashes n ↔
    low ≤ n ∧ ∃ node ∈ accepted, node.hash = hash ∧ node.number = n
  numbers : ∀ n, store.allHeaderHashes n = none ↔ n < low ∨ ∀ node ∈ accepted, node.number < n
  infos : ∀ node ∈ accepted, low ≤ node.number → ∃ info, store.infos node.hash = some info ∧
    info.number = node.number ∧ (node ≠ first → info.parentHash = node.parentHash)
  infosMem : ∀ hash info, store.infos hash = some info →
    ∃ node ∈ accepted, node.hash = hash ∧ low ≤ node.number
  headersMem : ∀ hash header, store.headers hash = some header →
    ∃ node ∈ accepted, node.hash = hash ∧ low ≤ node.number ∧ header.number.toNat = node.number

namespace Stored

variable {first : Node} {accepted : List Node} {low : Nat} {store : Store}

/-- The info of a stored header names its parent. -/
theorem parentHash (stored : Stored first accepted low store) (tree : Tree first accepted) {node : Node}
    (member : node ∈ accepted) (other : node ≠ first) {info : HeaderInfo}
    (found : store.infos node.hash = some info) : info.parentHash = node.parentHash := by
  obtain ⟨same, inside, hash, bound⟩ := stored.infosMem _ _ found
  obtain rfl := tree.unique same inside node member hash
  obtain ⟨_, found', -, parent⟩ := stored.infos same inside bound
  rw [found] at found'
  rw [Option.some.inj found']
  exact parent other

/-- A header without info is below the stored numbers. -/
theorem number_lt (stored : Stored first accepted low store) {node : Node} (member : node ∈ accepted)
    (gone : store.infos node.hash = none) : node.number < low := by
  by_contra bound
  obtain ⟨info, found, -⟩ := stored.infos node member (by omega)
  rw [gone] at found
  cases found

theorem start (first : Node) {header : BlockHeader} {info : HeaderInfo}
    (headerNumber : header.number.toNat = first.number) (infoNumber : info.number = first.number) :
    Stored first [first] first.number
      ⟨UnorderedMap.insert (fun _ => none) first.number [first.hash],
        UnorderedMap.insert (fun _ => none) first.hash header,
        UnorderedMap.insert (fun _ => none) first.hash info⟩ where
  known := by
    intro n hash
    simp only [Store.knownHashes, UnorderedMap.insert_apply, List.mem_singleton, exists_eq_left]
    by_cases here : n = first.number
    · simp [here, eq_comm]
    · simp [here, eq_comm]
  numbers := by
    intro n
    simp only [UnorderedMap.insert_apply, List.mem_singleton, forall_eq]
    by_cases here : n = first.number
    · simp [here]
    · simp only [here, if_false, true_iff]
      omega
  infos := by
    intro node member _
    rw [List.mem_singleton.mp member]
    exact ⟨info, by simp [UnorderedMap.insert_apply], infoNumber, fun other => absurd rfl other⟩
  infosMem := by
    intro hash found stored
    simp only [UnorderedMap.insert_apply] at stored
    split at stored
    · exact ⟨first, by simp, by simp [*], Nat.le_refl _⟩
    · cases stored
  headersMem := by
    intro hash found stored
    simp only [UnorderedMap.insert_apply] at stored
    split at stored
    · rw [← Option.some.inj stored]
      exact ⟨first, by simp, by simp [*], Nat.le_refl _, headerNumber⟩
    · cases stored

theorem insert (stored : Stored first accepted low store) {node older : Node} {header : BlockHeader}
    {info : HeaderInfo} (parent : older ∈ accepted) (bound : low ≤ older.number)
    (number : node.number = older.number + 1) (fresh : ∀ other ∈ accepted, other.hash ≠ node.hash)
    (headerNumber : header.number.toNat = node.number) (infoNumber : info.number = node.number)
    (infoParent : info.parentHash = node.parentHash) :
    Stored first (accepted ++ [node]) low
      ⟨store.allHeaderHashes.insert node.number (store.knownHashes node.number ++ [node.hash]),
        store.headers.insert node.hash header, store.infos.insert node.hash info⟩ where
  known := by
    intro n hash
    simp only [Store.knownHashes, UnorderedMap.insert_apply]
    by_cases here : n = node.number
    · subst here
      have before := stored.known node.number hash
      simp only [Store.knownHashes] at before
      simp only [if_true, Option.getD_some, List.mem_append, List.mem_singleton, before]
      constructor
      · rintro (⟨low, other, member, found⟩ | rfl)
        · exact ⟨low, other, .inl member, found⟩
        · exact ⟨by omega, node, .inr rfl, rfl, rfl⟩
      · rintro ⟨low, other, member | rfl, named, height⟩
        · exact .inl ⟨low, other, member, named, height⟩
        · exact .inr named.symm
    · rw [if_neg here]
      rw [show (store.allHeaderHashes n).getD [] = store.knownHashes n from rfl, stored.known]
      simp only [List.mem_append, List.mem_singleton]
      constructor
      · rintro ⟨low, other, member, found⟩
        exact ⟨low, other, .inl member, found⟩
      · rintro ⟨low, other, member | rfl, named, height⟩
        · exact ⟨low, other, member, named, height⟩
        · exact absurd height.symm here
  numbers := by
    intro n
    simp only [UnorderedMap.insert_apply]
    by_cases here : n = node.number
    · subst here
      simp only [if_true, List.mem_append, List.mem_singleton]
      constructor
      · intro impossible
        cases impossible
      · rintro (small | above)
        · omega
        · have self := above node (.inr rfl)
          omega
    · rw [if_neg here, stored.numbers]
      simp only [List.mem_append, List.mem_singleton]
      constructor
      · rintro (small | above)
        · exact .inl small
        · refine .inr fun other member => ?_
          rcases member with member | rfl
          · exact above other member
          · have step := above older parent
            omega
      · rintro (small | above)
        · exact .inl small
        · exact .inr fun other member => above other (.inl member)
  infos := by
    intro other member lower
    simp only [UnorderedMap.insert_apply]
    rcases List.mem_append.mp member with old | new
    · rw [if_neg (fresh other old)]
      exact stored.infos other old lower
    · rw [List.mem_singleton.mp new, if_pos rfl]
      exact ⟨info, rfl, infoNumber, fun _ => infoParent⟩
  infosMem := by
    intro hash found stored'
    simp only [UnorderedMap.insert_apply] at stored'
    split at stored'
    · exact ⟨node, by simp, by simp [*], by omega⟩
    · obtain ⟨other, member, rest⟩ := stored.infosMem _ _ stored'
      exact ⟨other, List.mem_append_left _ member, rest⟩
  headersMem := by
    intro hash found stored'
    simp only [UnorderedMap.insert_apply] at stored'
    split at stored'
    · rw [← Option.some.inj stored']
      exact ⟨node, by simp, by simp [*], by omega, headerNumber⟩
    · obtain ⟨other, member, rest⟩ := stored.headersMem _ _ stored'
      exact ⟨other, List.mem_append_left _ member, rest⟩

theorem upTo_iff (stored : Stored first accepted low store) (tree : Tree first accepted) (top : Nat)
    {node : Node} (member : node ∈ accepted) (lower : low ≤ node.number) :
    store.UpTo top node.hash ↔ node.number ≤ top := by
  constructor
  · rintro ⟨n, inside, known⟩
    obtain ⟨-, other, member', named, height⟩ := (stored.known _ _).mp known
    rw [tree.unique node member other member' named.symm]
    omega
  · intro inside
    exact ⟨node.number, inside, (stored.known _ _).mpr ⟨lower, node, member, rfl, rfl⟩⟩

/-- What collecting leaves is stored from the next number on. -/
theorem collect (stored : Stored first accepted low store) (tree : Tree first accepted) {top : Nat}
    {after : Store} (collected : Collected top store after) :
    Stored first accepted (max low (top + 1)) after := by
  have upTo : ∀ node ∈ accepted, low ≤ node.number →
      (store.UpTo top node.hash ↔ node.number ≤ top) :=
    fun node member lower => stored.upTo_iff tree top member lower
  refine ⟨fun n hash => ?_, fun n => ?_, fun node member lower => ?_, fun hash info found => ?_,
    fun hash header found => ?_⟩
  · rw [Store.knownHashes, collected.numbers]
    split
    · simp only [Option.getD_none, List.not_mem_nil, false_iff]
      omega
    · rw [show (store.allHeaderHashes n).getD [] = store.knownHashes n from rfl, stored.known]
      have same : low ≤ n ↔ max low (top + 1) ≤ n := by omega
      rw [same]
  · rw [collected.numbers]
    split
    · simp only [true_iff]
      left
      omega
    · rw [stored.numbers]
      have same : n < low ↔ n < max low (top + 1) := by omega
      rw [same]
  · rw [collected.infos, if_neg (by rw [upTo node member (by omega)]; omega)]
    exact stored.infos node member (by omega)
  · rw [collected.infos] at found
    split at found
    · cases found
    · obtain ⟨node, member, rfl, lower⟩ := stored.infosMem _ _ found
      rw [upTo node member lower] at *
      exact ⟨node, member, rfl, by omega⟩
  · rw [collected.headers] at found
    split at found
    · cases found
    · obtain ⟨node, member, rfl, lower, number⟩ := stored.headersMem _ _ found
      rw [upTo node member lower] at *
      exact ⟨node, member, rfl, by omega, number⟩

theorem closed (stored : Stored first accepted low store) {top : Nat} {node : Node}
    (member : node ∈ accepted) (reached : top ≤ node.number) :
    ∀ n ≤ top, store.allHeaderHashes n = none → ∀ k ≤ n, store.allHeaderHashes k = none := by
  intro n inside missing k lower
  rcases (stored.numbers n).mp missing with small | above
  · exact (stored.numbers k).mpr (.inl (by omega))
  · have bound := above node member
    omega

end Stored

end RainbowBridge.EthClient
