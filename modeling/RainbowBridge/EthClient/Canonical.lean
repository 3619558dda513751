import RainbowBridge.EthClient.Storage

/-! The canonical chain under a new best header. It is again the ancestry of the
best header if the part of the old chain that is kept below the replaced hashes is
on the branch of the new header. -/

namespace RainbowBridge.EthClient

open Lib EthTypes Near

/-- The canonical hashes are those of the ancestors of the best header, without a
gap from the lowest one up to the best header. -/
structure ChainOf (accepted : List Node) (best : Node) (canonical : UnorderedMap Nat H256) : Prop where
  ancestors : ∀ n hash, canonical n = some hash →
    ∃ older, Descends accepted best older ∧ older.number = n ∧ older.hash = hash
  filled : ∀ n k, (canonical n).isSome → n ≤ k → k ≤ best.number → (canonical k).isSome

/-- Under a new best header, every kept hash below the replaced ones is on its
branch: the walk along the branch can reach it, or it is an ancestor already. And
the walk ends at the first header, or what it writes below is removed at once. -/
structure Recoverable (first : Node) (accepted : List Node) (canonical : UnorderedMap Nat H256)
    (infos : UnorderedMap H256 HeaderInfo) (hashesGcThreshold : Nat) (node : Node) : Prop where
  reached : ∀ n hash, canonical n = some hash → n < node.number →
    node.number < n + hashesGcThreshold → AncestorAt accepted node.parentHash n hash ∨
      ∀ k older, n < k → AncestorAt accepted node.parentHash k older → (infos older).isSome
  bounded : (infos first.hash).isSome → 0 < first.number →
    (∀ n hash, canonical n = some hash → ¬ AncestorAt accepted node.parentHash n hash) →
      first.number + hashesGcThreshold ≤ node.number + 1

theorem ChainOf.number_le {accepted : List Node} {best : Node} {canonical : UnorderedMap Nat H256}
    (chain : ChainOf accepted best canonical) {n : Nat} {hash : H256} (found : canonical n = some hash) :
    n ≤ best.number := by
  obtain ⟨older, path, rfl, -⟩ := chain.ancestors n hash found
  exact Descends.number_le path

theorem ChainOf.start (first : Node) :
    ChainOf [first] first (UnorderedMap.insert (fun _ => none) first.number first.hash) where
  ancestors := by
    intro n hash found
    rw [UnorderedMap.insert_apply] at found
    split at found
    · exact ⟨first, .refl, by omega, Option.some.inj found⟩
    · cases found
  filled := by
    intro n k present lower upper
    rw [UnorderedMap.insert_apply] at present ⊢
    split at present
    · rw [if_pos (by omega)]
      rfl
    · cases present

theorem ChainOf.first_le {first best : Node} {accepted : List Node} {canonical : UnorderedMap Nat H256}
    (chain : ChainOf accepted best canonical) (tree : Tree first accepted) (top : best ∈ accepted)
    {n : Nat} {hash : H256} (found : canonical n = some hash) : first.number ≤ n := by
  obtain ⟨oldest, path, rfl, -⟩ := chain.ancestors n hash found
  exact tree.above oldest (Descends.mem path top)

theorem ChainOf.none_above {accepted : List Node} {best : Node} {canonical : UnorderedMap Nat H256}
    (chain : ChainOf accepted best canonical) (n : Nat) (higher : best.number < n) :
    canonical n = none := by
  cases found : canonical n with
  | none => rfl
  | some hash =>
    have bound := chain.number_le found
    omega

/-- The hashes above the new header are forgotten. -/
theorem cleaned_apply {canonical : UnorderedMap Nat H256} {top : Nat}
    (above : ∀ n, top < n → canonical n = none) (number n : Nat) :
    (if top > number then removeNumbers (number + 1) (top - number) canonical
      else canonical) n = if number < n then none else canonical n := by
  split
  · rw [removeNumbers_apply]
    by_cases inside : number + 1 ≤ n ∧ n < number + 1 + (top - number)
    · rw [if_pos inside, if_pos (by omega)]
    · rw [if_neg inside]
      by_cases higher : number < n
      · rw [if_pos higher, above n (by omega)]
      · rw [if_neg higher]
  · by_cases higher : number < n
    · rw [if_pos higher, above n (by omega)]
    · rw [if_neg higher]

/-- The canonical hashes up to a new header, with its own hash on top. -/
def cleared (canonical : UnorderedMap Nat H256) (node : Node) : UnorderedMap Nat H256 :=
  UnorderedMap.insert (fun n => if node.number < n then none else canonical n) node.number node.hash

theorem cleared_below {canonical : UnorderedMap Nat H256} {node : Node} {n : Nat}
    (below : n < node.number) : cleared canonical node n = canonical n := by
  rw [cleared, UnorderedMap.insert_apply, if_neg (by omega), if_neg (by omega)]

theorem cleared_top (canonical : UnorderedMap Nat H256) (node : Node) :
    cleared canonical node node.number = some node.hash := by
  rw [cleared, UnorderedMap.insert_apply, if_pos rfl]

theorem cleared_above {canonical : UnorderedMap Nat H256} {node : Node} {n : Nat}
    (above : node.number < n) : cleared canonical node n = none := by
  rw [cleared, UnorderedMap.insert_apply, if_neg (by omega), if_pos above]

/-- The canonical chain under a new best header, by its node. -/
theorem canonicalUnder_eq {client : Client} {info bestInfo : HeaderInfo} {node : Node}
    (above : ∀ n, bestInfo.number < n → client.canonicalHeaderHashes n = none)
    (number : info.number = node.number) :
    client.canonicalUnder node.hash info bestInfo = replacePast client.infos (node.number - 1)
      info.parentHash (cleared client.canonicalHeaderHashes node) := by
  simp only [Client.canonicalUnder, number, cleared]
  congr 2
  funext n
  exact cleaned_apply above node.number n

section Update

variable {first best node older : Node} {accepted : List Node}
  {canonical replaced : UnorderedMap Nat H256} {infos : UnorderedMap H256 HeaderInfo} {stop : Nat}
  (number : node.number = older.number + 1)
  (walk : Replaced first accepted infos (cleared canonical node) replaced older stop)

include number walk

theorem replaced_above {n : Nat} (above : node.number < n) : replaced n = none := by
  rw [walk.kept n (by omega), cleared_above above]

theorem replaced_top : replaced node.number = some node.hash := by
  rw [walk.kept _ (by omega), cleared_top]

theorem replaced_below {n : Nat} (below : n < stop) : replaced n = canonical n := by
  have bound := walk.low
  rw [walk.kept n (by omega), cleared_below (by omega)]

variable (tree : Tree first accepted) (chain : ChainOf accepted best canonical)
  (top : best ∈ accepted) (parent : older ∈ accepted)

include tree chain top parent

/-- The replaced hashes have no gap. -/
theorem replaced_filled
    (stored : ∀ middle ∈ accepted, infos middle.hash = none → middle.number ≤ best.number)
    {n k : Nat} (some : (replaced n).isSome) (lower : n ≤ k) (upper : k ≤ node.number) :
    (replaced k).isSome := by
  by_cases here : k = node.number
  · rw [here, replaced_top number walk]
    rfl
  · by_cases inside : stop ≤ k
    · exact walk.filled k inside (by omega)
    · rw [replaced_below number walk (by omega)] at some ⊢
      obtain ⟨hash, found⟩ := Option.isSome_iff_exists.mp some
      have low := walk.low
      have bound : stop ≤ best.number := by
        cases walk.reason with
        | bottom zero _ => omega
        | converged middle path height met =>
          rw [cleared_below (by omega)] at met
          exact chain.number_le met
        | lost middle path height gone =>
          rw [← height]
          exact stored middle (Descends.mem path parent) gone
        | overrun below _ _ =>
          have above := chain.first_le tree top found
          omega
      exact chain.filled n k some lower (by omega)

/-- A replaced hash that is kept is that of an ancestor. -/
theorem replaced_ancestor (hash : older.hash = node.parentHash) {threshold : Nat}
    (recoverable : Recoverable first accepted canonical infos threshold node) {n : Nat} {found : H256}
    (here : replaced n = some found) (below : n < node.number) (kept : node.number < n + threshold) :
    ∃ oldest, Descends accepted older oldest ∧ oldest.number = n ∧ oldest.hash = found := by
  have low := walk.low
  have branch : ∀ {k : Nat} {ancestor : H256}, AncestorAt accepted node.parentHash k ancestor ↔
      ∃ oldest ∈ accepted, oldest.hash = ancestor ∧ oldest.number = k ∧
        Descends accepted older oldest := by
    intro k ancestor
    rw [← hash]
    exact tree.ancestorAt_iff parent
  by_cases inside : stop ≤ n
  · by_cases above : first.number ≤ n
    · obtain ⟨oldest, path, height, same⟩ := walk.ancestors n inside (by omega) above
      rw [here] at same
      exact ⟨oldest, path, height, (Option.some.inj same).symm⟩
    · exfalso
      cases walk.reason with
      | bottom _ root => omega
      | converged middle path height _ =>
        have bound := tree.above middle (Descends.mem path parent)
        omega
      | lost middle path height _ =>
        have bound := tree.above middle (Descends.mem path parent)
        omega
      | overrun _ stored apart =>
        have bound := recoverable.bounded stored (by omega) fun k ancestor met ancestry => by
          obtain ⟨oldest, _, rfl, rfl, path⟩ := branch.mp ancestry
          have order := Descends.number_le path
          exact apart oldest path (by rwa [cleared_below (by omega)])
        omega
  · rw [replaced_below number walk (by omega)] at here
    cases walk.reason with
    | bottom zero _ => omega
    | converged middle path height met =>
      rw [cleared_below (by omega)] at met
      obtain ⟨same, down, level, equal⟩ := chain.ancestors stop _ met
      obtain rfl := tree.unique same (Descends.mem down top) middle (Descends.mem path parent) equal
      obtain ⟨oldest, down', rfl, named⟩ := chain.ancestors n _ here
      exact ⟨oldest, path.trans (tree.descends_of_le down down' (by omega)), rfl, named⟩
    | lost middle path height gone =>
      rcases recoverable.reached n found here below kept with ancestry | stored
      · obtain ⟨oldest, _, named, level, down⟩ := branch.mp ancestry
        exact ⟨oldest, down, level, named⟩
      · have present := stored stop middle.hash (by omega)
          (branch.mpr ⟨middle, Descends.mem path parent, rfl, height, path⟩)
        rw [gone] at present
        cases present
    | overrun deep _ _ =>
      have above := chain.first_le tree top here
      omega

/-- After the removal of old hashes the chain is that of the new header. -/
theorem chainOf_replaced (hash : older.hash = node.parentHash) {threshold : Nat}
    (recoverable : Recoverable first accepted canonical infos threshold node)
    (stored : ∀ middle ∈ accepted, infos middle.hash = none → middle.number ≤ best.number) :
    ChainOf (accepted ++ [node]) node
      (if node.number ≥ threshold then gcCanonicalChain (node.number - threshold) replaced
        else replaced) := by
  have contained : accepted ⊆ accepted ++ [node] := List.subset_append_left _ _
  have link : IsParent (accepted ++ [node]) node older :=
    ⟨by simp, contained parent, hash, number⟩
  have filled : ∀ {n k : Nat}, (replaced n).isSome → n ≤ k → k ≤ node.number → (replaced k).isSome :=
    replaced_filled number walk tree chain top parent stored
  have survives : ∀ {n : Nat} {found : H256},
      (if node.number ≥ threshold then gcCanonicalChain (node.number - threshold) replaced
        else replaced) n = some found → replaced n = some found ∧ node.number < n + threshold := by
    intro n found kept
    split at kept
    · have before := gcCanonicalChain_some kept
      refine ⟨before, ?_⟩
      by_contra old
      rw [gcCanonicalChain_none (by omega) fun k lower upper =>
        filled (by rw [before]; rfl) lower (by omega)] at kept
      cases kept
    · exact ⟨kept, by omega⟩
  have remains : ∀ {n : Nat}, node.number < n + threshold →
      (if node.number ≥ threshold then gcCanonicalChain (node.number - threshold) replaced
        else replaced) n = replaced n := by
    intro n recent
    split
    · exact gcCanonicalChain_above (by omega) _
    · rfl
  constructor
  · intro n found kept
    obtain ⟨before, recent⟩ := survives kept
    rcases Nat.lt_trichotomy n node.number with below | rfl | above
    · obtain ⟨oldest, path, level, named⟩ :=
        replaced_ancestor number walk tree chain top parent hash recoverable before below recent
      exact ⟨oldest, .head link (Descends.mono contained path), level, named⟩
    · rw [replaced_top number walk] at before
      exact ⟨node, .refl, rfl, Option.some.inj before⟩
    · rw [replaced_above number walk above] at before
      cases before
  · intro n k present lower upper
    obtain ⟨found, kept⟩ := Option.isSome_iff_exists.mp present
    obtain ⟨before, recent⟩ := survives kept
    rw [remains (by omega)]
    exact filled (by rw [before]; rfl) lower upper

end Update

end RainbowBridge.EthClient
