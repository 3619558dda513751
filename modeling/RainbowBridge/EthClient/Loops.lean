import RainbowBridge.EthClient.Contract
import RainbowBridge.EthClient.Tree

/-! What the loops of `record_header` do to the maps: forgetting the numbers above
a new best header, replacing past hashes, and the two garbage collections. -/

namespace RainbowBridge.EthClient

open Lib EthTypes Near

theorem removeNumbers_apply (number count : Nat) (canonical : UnorderedMap Nat H256) (n : Nat) :
    removeNumbers number count canonical n =
      if number ≤ n ∧ n < number + count then none else canonical n := by
  induction count generalizing number canonical with
  | zero => simp [removeNumbers]
  | succ count ih =>
    rw [removeNumbers, ih, UnorderedMap.remove_apply]
    by_cases here : n = number
    · simp [here]
    · have same : (number + 1 ≤ n ∧ n < number + 1 + count) ↔ (number ≤ n ∧ n < number + (count + 1)) := by
        omega
      simp only [same, here, if_false]

/-! ### Replacing past hashes -/

section Step

variable {infos : UnorderedMap H256 HeaderInfo} {number : Nat} {hash : H256}
  {canonical : UnorderedMap Nat H256}

theorem replacePast_met (met : canonical (number + 1) = some hash) :
    replacePast infos (number + 1) hash canonical = canonical.insert (number + 1) hash := by
  simp only [replacePast, met, if_true]

theorem replacePast_lost (different : canonical (number + 1) ≠ some hash) (gone : infos hash = none) :
    replacePast infos (number + 1) hash canonical = canonical.insert (number + 1) hash := by
  simp only [replacePast, different, if_false, gone]

theorem replacePast_on {info : HeaderInfo} (different : canonical (number + 1) ≠ some hash)
    (stored : infos hash = some info) :
    replacePast infos (number + 1) hash canonical =
      replacePast infos number info.parentHash (canonical.insert (number + 1) hash) := by
  simp only [replacePast, different, if_false, stored]

end Step

/-- The loop fills the numbers down to where it stops and leaves the others. -/
theorem replacePast_range (infos : UnorderedMap H256 HeaderInfo) (number : Nat) (hash : H256)
    (canonical : UnorderedMap Nat H256) :
    ∃ stop ≤ number,
      (∀ k, stop ≤ k → k ≤ number → (replacePast infos number hash canonical k).isSome) ∧
      ∀ k, k < stop ∨ number < k → replacePast infos number hash canonical k = canonical k := by
  induction number generalizing hash canonical with
  | zero =>
    refine ⟨0, Nat.le_refl _, fun k _ inside => ?_, fun k outside => ?_⟩
    · rw [replacePast, UnorderedMap.insert_apply, if_pos (by omega)]
      rfl
    · rw [replacePast, UnorderedMap.insert_apply, if_neg (by omega)]
  | succ number ih =>
    have stopHere : ∃ stop ≤ number + 1,
        (∀ k, stop ≤ k → k ≤ number + 1 → (canonical.insert (number + 1) hash k).isSome) ∧
        ∀ k, k < stop ∨ number + 1 < k → canonical.insert (number + 1) hash k = canonical k := by
      refine ⟨number + 1, Nat.le_refl _, fun k lower inside => ?_, fun k outside => ?_⟩
      · rw [UnorderedMap.insert_apply, if_pos (by omega)]
        rfl
      · rw [UnorderedMap.insert_apply, if_neg (by omega)]
    by_cases met : canonical (number + 1) = some hash
    · rwa [replacePast_met met]
    · cases stored : infos hash with
      | none => rwa [replacePast_lost met stored]
      | some info =>
        rw [replacePast_on met stored]
        obtain ⟨stop, low, filled, kept⟩ := ih info.parentHash (canonical.insert (number + 1) hash)
        refine ⟨stop, by omega, fun k lower inside => ?_, fun k outside => ?_⟩
        · by_cases top : k = number + 1
          · rw [kept k (by omega), UnorderedMap.insert_apply, if_pos top]
            rfl
          · exact filled k lower (by omega)
        · rw [kept k (by omega), UnorderedMap.insert_apply, if_neg (by omega)]

/-- Why the loop stops where it does: it has replaced everything, it has met the
old chain or a header without info, or it has gone on below the first header. -/
inductive StopReason (first : Node) (accepted : List Node) (infos : UnorderedMap H256 HeaderInfo)
    (canonical : UnorderedMap Nat H256) (node : Node) (stop : Nat) : Prop where
  | bottom (zero : stop = 0) (root : first.number = 0)
  | converged (middle : Node) (path : Descends accepted node middle) (height : middle.number = stop)
    (met : canonical stop = some middle.hash)
  | lost (middle : Node) (path : Descends accepted node middle) (height : middle.number = stop)
    (gone : infos middle.hash = none)
  | overrun (low : stop < first.number) (stored : (infos first.hash).isSome)
    (apart : ∀ middle, Descends accepted node middle → canonical middle.number ≠ some middle.hash)

/-- What the loop does when it starts at a header of the tree. -/
structure Replaced (first : Node) (accepted : List Node) (infos : UnorderedMap H256 HeaderInfo)
    (canonical after : UnorderedMap Nat H256) (node : Node) (stop : Nat) : Prop where
  low : stop ≤ node.number
  filled : ∀ k, stop ≤ k → k ≤ node.number → (after k).isSome
  ancestors : ∀ k, stop ≤ k → k ≤ node.number → first.number ≤ k →
    ∃ older, Descends accepted node older ∧ older.number = k ∧ after k = some older.hash
  kept : ∀ k, k < stop ∨ node.number < k → after k = canonical k
  reason : StopReason first accepted infos canonical node stop

theorem Replaced.here {first : Node} {accepted : List Node} {infos : UnorderedMap H256 HeaderInfo}
    {canonical : UnorderedMap Nat H256} {node : Node}
    (reason : StopReason first accepted infos canonical node node.number) :
    Replaced first accepted infos canonical (canonical.insert node.number node.hash) node
      node.number where
  low := Nat.le_refl _
  filled := by
    intro k lower upper
    rw [UnorderedMap.insert_apply, if_pos (by omega)]
    rfl
  ancestors := by
    intro k lower upper _
    refine ⟨node, .refl, by omega, ?_⟩
    rw [UnorderedMap.insert_apply, if_pos (by omega)]
  kept := by
    intro k outside
    rw [UnorderedMap.insert_apply, if_neg (by omega)]
  reason := reason

/-- One more header on top of where the loop starts. -/
theorem Replaced.step {first : Node} {accepted : List Node} (tree : Tree first accepted)
    {infos : UnorderedMap H256 HeaderInfo} {canonical after : UnorderedMap Nat H256}
    {node older : Node} {stop : Nat} (link : IsParent accepted node older)
    (different : canonical node.number ≠ some node.hash)
    (replaced : Replaced first accepted infos (canonical.insert node.number node.hash) after older stop) :
    Replaced first accepted infos canonical after node stop := by
  have number := link.number
  have low := replaced.low
  have old : ∀ k, k ≠ node.number → canonical.insert node.number node.hash k = canonical k := by
    intro k other
    rw [UnorderedMap.insert_apply, if_neg other]
  have top : after node.number = some node.hash := by
    rw [replaced.kept _ (by omega), UnorderedMap.insert_apply, if_pos rfl]
  refine ⟨by omega, fun k lower upper => ?_, fun k lower upper above => ?_, fun k outside => ?_, ?_⟩
  · by_cases here : k = node.number
    · rw [here, top]
      rfl
    · exact replaced.filled k lower (by omega)
  · by_cases here : k = node.number
    · exact ⟨node, .refl, here.symm, by rw [here, top]⟩
    · obtain ⟨oldest, path, height, found⟩ := replaced.ancestors k lower (by omega) above
      exact ⟨oldest, .head link path, height, found⟩
  · rw [replaced.kept k (by omega), old k (by omega)]
  · cases replaced.reason with
    | bottom zero root => exact .bottom zero root
    | converged middle path height met =>
      rw [old stop (by omega)] at met
      exact .converged middle (.head link path) height met
    | lost middle path height gone => exact .lost middle (.head link path) height gone
    | overrun low stored apart =>
      refine .overrun low stored fun middle path met => ?_
      rcases path.cases_head with rfl | ⟨next, link', rest⟩
      · exact different met
      · obtain rfl := tree.rightUnique link link'
        have lower := Descends.number_le rest
        exact apart middle rest (by rwa [old _ (by omega)])

/-- The loop at the first header, which does not stop because its info is stored. -/
theorem Replaced.overrun {first : Node} {accepted : List Node} (tree : Tree first accepted)
    {infos : UnorderedMap H256 HeaderInfo} {canonical after : UnorderedMap Nat H256}
    {number stop : Nat} (height : first.number = number + 1)
    (different : canonical first.number ≠ some first.hash) (stored : (infos first.hash).isSome)
    (low : stop ≤ number) (filled : ∀ k, stop ≤ k → k ≤ number → (after k).isSome)
    (kept : ∀ k, k < stop ∨ number < k → after k = canonical.insert first.number first.hash k) :
    Replaced first accepted infos canonical after first stop := by
  have top : after first.number = some first.hash := by
    rw [kept _ (by omega), UnorderedMap.insert_apply, if_pos rfl]
  refine ⟨by omega, fun k lower upper => ?_, fun k lower upper above => ?_, fun k outside => ?_, ?_⟩
  · by_cases here : k = first.number
    · rw [here, top]
      rfl
    · exact filled k lower (by omega)
  · obtain rfl : k = first.number := by omega
    exact ⟨first, .refl, rfl, top⟩
  · rw [kept k (by omega), UnorderedMap.insert_apply, if_neg (by omega)]
  · refine .overrun (by omega) stored fun middle path => ?_
    rwa [← tree.descends_first path]

theorem replacePast_replaced {first : Node} {accepted : List Node} (tree : Tree first accepted)
    {infos : UnorderedMap H256 HeaderInfo}
    (parents : ∀ node ∈ accepted, node ≠ first → ∀ info, infos node.hash = some info →
      info.parentHash = node.parentHash)
    {node : Node} (member : node ∈ accepted) (canonical : UnorderedMap Nat H256) :
    ∃ stop, Replaced first accepted infos canonical
      (replacePast infos node.number node.hash canonical) node stop := by
  obtain ⟨number, height⟩ : ∃ number, node.number = number := ⟨_, rfl⟩
  induction number generalizing node canonical with
  | zero =>
    have above := tree.above node member
    have here : Replaced first accepted infos canonical _ node _ := .here (.bottom height (by omega))
    refine ⟨node.number, ?_⟩
    simpa only [height, replacePast] using here
  | succ number ih =>
    by_cases met : canonical node.number = some node.hash
    · have here : Replaced first accepted infos canonical _ node _ :=
        .here (.converged node .refl rfl met)
      rw [height] at met here ⊢
      exact ⟨_, by rwa [replacePast_met met]⟩
    · cases stored : infos node.hash with
      | none =>
        have here : Replaced first accepted infos canonical _ node _ :=
          .here (.lost node .refl rfl stored)
        rw [height] at met here ⊢
        exact ⟨_, by rwa [replacePast_lost met stored]⟩
      | some info =>
        by_cases root : node = first
        · subst root
          obtain ⟨stop, low, filled, kept⟩ :=
            replacePast_range infos number info.parentHash (canonical.insert (number + 1) node.hash)
          refine ⟨stop, .overrun tree height met (by rw [stored]; rfl) low ?_ ?_⟩
          · rwa [height, replacePast_on (by rwa [← height]) stored]
          · rwa [height, replacePast_on (by rwa [← height]) stored]
        · obtain ⟨older, link⟩ := tree.linked node member root
          have below : older.number = number := by
            have step := link.number
            omega
          obtain ⟨stop, replaced⟩ := ih link.olderMem (canonical.insert node.number node.hash) below
          refine ⟨stop, .step tree link met ?_⟩
          rw [height] at met replaced ⊢
          rw [below] at replaced
          rwa [replacePast_on met stored, parents node member root info stored, ← link.hash]

/-! ### Garbage collection of the canonical chain -/

theorem gcCanonicalChain_above {top n : Nat} (above : top < n) (canonical : UnorderedMap Nat H256) :
    gcCanonicalChain top canonical n = canonical n := by
  induction top generalizing canonical with
  | zero => rw [gcCanonicalChain, UnorderedMap.remove_apply, if_neg (by omega)]
  | succ top ih =>
    rw [gcCanonicalChain]
    split
    · rw [ih (by omega), UnorderedMap.remove_apply, if_neg (by omega)]
    · rfl

theorem gcCanonicalChain_some {top n : Nat} {canonical : UnorderedMap Nat H256} {hash : H256}
    (kept : gcCanonicalChain top canonical n = some hash) : canonical n = some hash := by
  have removed : ∀ {key : Nat} {map : UnorderedMap Nat H256}, map.remove key n = some hash →
      map n = some hash := by
    intro key map found
    rw [UnorderedMap.remove_apply] at found
    split at found
    · cases found
    · exact found
  induction top generalizing canonical with
  | zero => exact removed kept
  | succ top ih =>
    rw [gcCanonicalChain] at kept
    split at kept
    · exact removed (ih kept)
    · exact kept

/-- An entry from which there is no gap up to the start is removed. -/
theorem gcCanonicalChain_none {top n : Nat} {canonical : UnorderedMap Nat H256} (inside : n ≤ top)
    (filled : ∀ k, n ≤ k → k ≤ top → (canonical k).isSome) :
    gcCanonicalChain top canonical n = none := by
  induction top generalizing canonical with
  | zero => rw [gcCanonicalChain, UnorderedMap.remove_apply, if_pos (by omega)]
  | succ top ih =>
    rw [gcCanonicalChain, if_pos (filled _ inside (Nat.le_refl _))]
    by_cases here : n = top + 1
    · rw [gcCanonicalChain_above (by omega), UnorderedMap.remove_apply, if_pos here]
    · refine ih (by omega) fun k lower upper => ?_
      rw [UnorderedMap.remove_apply, if_neg (by omega)]
      exact filled k lower (by omega)

/-! ### Garbage collection of headers -/

theorem foldl_remove {Key Value : Type} [DecidableEq Key] (keys : List Key)
    (map : UnorderedMap Key Value) (key : Key) :
    keys.foldl UnorderedMap.remove map key = if key ∈ keys then none else map key := by
  induction keys generalizing map with
  | nil => simp
  | cons first rest ih =>
    rw [List.foldl_cons, ih, UnorderedMap.remove_apply]
    by_cases later : key ∈ rest
    · simp [later]
    · simp [later]

section DropNumber

variable (store : Store) (number : Nat) (hashes : List H256)

theorem dropNumber_allHeaderHashes (n : Nat) : (store.dropNumber number hashes).allHeaderHashes n =
    if n = number then none else store.allHeaderHashes n :=
  UnorderedMap.remove_apply _ _ _

theorem dropNumber_infos (hash : H256) : (store.dropNumber number hashes).infos hash =
    if hash ∈ hashes then none else store.infos hash :=
  foldl_remove _ _ _

theorem dropNumber_headers (hash : H256) : (store.dropNumber number hashes).headers hash =
    if hash ∈ hashes then none else store.headers hash :=
  foldl_remove _ _ _

end DropNumber

def Store.knownHashes (store : Store) (number : Nat) : List H256 := (store.allHeaderHashes number).getD []

/-- The hash is stored under a number up to `top`. -/
def Store.UpTo (store : Store) (top : Nat) (hash : H256) : Prop :=
  ∃ n ≤ top, hash ∈ store.knownHashes n

instance (store : Store) (top : Nat) (hash : H256) : Decidable (store.UpTo top hash) :=
  inferInstanceAs (Decidable (∃ n ≤ top, hash ∈ store.knownHashes n))

/-- Everything about the numbers up to `top` is gone, the rest is as before. -/
structure Collected (top : Nat) (store after : Store) : Prop where
  numbers : ∀ n, after.allHeaderHashes n = if n ≤ top then none else store.allHeaderHashes n
  infos : ∀ hash, after.infos hash = if store.UpTo top hash then none else store.infos hash
  headers : ∀ hash, after.headers hash = if store.UpTo top hash then none else store.headers hash

theorem not_upTo_of_empty {store : Store} {top : Nat}
    (empty : ∀ n ≤ top, store.allHeaderHashes n = none) (hash : H256) : ¬ store.UpTo top hash := by
  rintro ⟨n, inside, known⟩
  simp [Store.knownHashes, empty n inside] at known

theorem collected_of_empty {store : Store} {top : Nat}
    (empty : ∀ n ≤ top, store.allHeaderHashes n = none) : Collected top store store where
  numbers := by
    intro n
    split
    · exact empty n (by assumption)
    · rfl
  infos := fun hash => (if_neg (not_upTo_of_empty empty hash)).symm
  headers := fun hash => (if_neg (not_upTo_of_empty empty hash)).symm

/-- Dropping the highest number first and then the others drops them all. -/
theorem Collected.dropNumber {store after : Store} {hashes : List H256} {top : Nat}
    (here : store.allHeaderHashes (top + 1) = some hashes)
    (others : Collected top (store.dropNumber (top + 1) hashes) after) :
    Collected (top + 1) store after := by
  have known : ∀ n ≤ top, (store.dropNumber (top + 1) hashes).knownHashes n = store.knownHashes n := by
    intro n inside
    rw [Store.knownHashes, dropNumber_allHeaderHashes, if_neg (by omega)]
    rfl
  have upTo : ∀ hash, store.UpTo (top + 1) hash ↔
      (store.dropNumber (top + 1) hashes).UpTo top hash ∨ hash ∈ hashes := by
    intro hash
    constructor
    · rintro ⟨n, inside, member⟩
      by_cases last : n = top + 1
      · right
        rwa [last, Store.knownHashes, here] at member
      · exact .inl ⟨n, by omega, by rwa [known n (by omega)]⟩
    · rintro (⟨n, inside, member⟩ | member)
      · exact ⟨n, by omega, by rwa [known n inside] at member⟩
      · exact ⟨top + 1, Nat.le_refl _, by rwa [Store.knownHashes, here]⟩
  refine ⟨fun n => ?_, fun hash => ?_, fun hash => ?_⟩
  · rw [others.numbers, dropNumber_allHeaderHashes]
    by_cases last : n = top + 1
    · simp [last]
    · have same : n ≤ top ↔ n ≤ top + 1 := by omega
      simp only [same, last, if_false]
  · rw [others.infos, dropNumber_infos]
    simp only [upTo hash]
    by_cases below : (store.dropNumber (top + 1) hashes).UpTo top hash
    · rw [if_pos below, if_pos (.inl below)]
    · simp only [below, if_false, false_or]
  · rw [others.headers, dropNumber_headers]
    simp only [upTo hash]
    by_cases below : (store.dropNumber (top + 1) hashes).UpTo top hash
    · rw [if_pos below, if_pos (.inl below)]
    · simp only [below, if_false, false_or]

/-- Without gaps in the stored numbers, the collection removes all that are low
enough. -/
theorem gcHeaders_collected {top : Nat} {store : Store}
    (closed : ∀ n ≤ top, store.allHeaderHashes n = none → ∀ k ≤ n, store.allHeaderHashes k = none) :
    Collected top store (gcHeaders top store) := by
  induction top generalizing store with
  | zero =>
    rw [gcHeaders]
    split
    · rename_i missing
      exact collected_of_empty fun n inside => by rwa [Nat.le_zero.mp inside]
    · rename_i hashes here
      have upTo : ∀ hash, store.UpTo 0 hash ↔ hash ∈ hashes := by
        intro hash
        constructor
        · rintro ⟨n, inside, member⟩
          rwa [Nat.le_zero.mp inside, Store.knownHashes, here] at member
        · intro member
          exact ⟨0, Nat.le_refl _, by rwa [Store.knownHashes, here]⟩
      refine ⟨fun n => ?_, fun hash => ?_, fun hash => ?_⟩
      · simp [dropNumber_allHeaderHashes]
      · simp only [dropNumber_infos, upTo]
      · simp only [dropNumber_headers, upTo]
  | succ top ih =>
    rw [gcHeaders]
    split
    · rename_i missing
      exact collected_of_empty (closed (top + 1) (Nat.le_refl _) missing)
    · rename_i hashes here
      refine .dropNumber here (ih fun n inside missing k lower => ?_)
      rw [dropNumber_allHeaderHashes, if_neg (by omega)] at missing ⊢
      exact closed n (by omega) missing k lower

end RainbowBridge.EthClient
