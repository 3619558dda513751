import RainbowBridge.EthClient.Bounded

/-! The order of submissions. As long as nothing is collected, the state after
recording a tree of headers is a function of the tree and its heaviest header. -/

namespace RainbowBridge.EthClient

open Lib EthTypes Near

/-- Records the headers one after the other. -/
def recordAll (client : Client) (headers : List BlockHeader) : Option Client :=
  headers.foldlM Client.recordHeader client

/-- The headers form a tree on the first one. -/
structure HeaderTree (first : BlockHeader) (headers : List BlockHeader) : Prop where
  hashed : ∀ header ∈ first :: headers, header.hash.isSome
  distinct : ((first :: headers).map BlockHeader.hash).Nodup
  linked : ∀ header ∈ headers, ∃ older ∈ first :: headers, older.hash = some header.parentHash ∧
    header.number.toNat = older.number.toNat + 1

/-- Every parent precedes its children. -/
def ParentFirst (first : BlockHeader) (order : List BlockHeader) : Prop :=
  ∀ before header after, order = before ++ header :: after →
    ∃ older ∈ first :: before, older.hash = some header.parentHash

/-- One header is heavier than all others. -/
def UniqueHeaviest (first : BlockHeader) (headers : List BlockHeader) : Prop :=
  ∃ best ∈ first :: headers, ∀ header ∈ first :: headers, header ≠ best →
    ∀ total bestTotal, TotalDifficulty first (first :: headers) header total →
      TotalDifficulty first (first :: headers) best bestTotal → total < bestTotal

/-- A client that has collected nothing: all headers are stored, and the canonical
chain reaches down to the first one. -/
structure Whole (first : BlockHeader) (accepted : List BlockHeader) (client : Client)
    (best : BlockHeader) : Prop where
  kept : Kept first accepted client best first.number.toNat
  chain : ChainOf (accepted.map toNode) (toNode best) client.canonicalHeaderHashes
  bottom : (client.canonicalHeaderHashes first.number.toNat).isSome

namespace Whole

variable {first best : BlockHeader} {accepted : List BlockHeader} {client : Client}

theorem start {crate : RlpCrate} {eip1559 : Bool} [Hashing] {config : Config}
    (started : init crate eip1559 none config = some client)
    (decoded : BlockHeader.decode crate eip1559 config.firstHeader = some first)
    (positive : 0 < config.finalizedGcThreshold) : Whole first [first] client first := by
  simp only [init, Option.bind_eq_bind, Option.bind_eq_some_iff, Option.pure_def,
    Option.some.injEq] at started
  obtain ⟨-, -, header, decoded', hash, named, rfl⟩ := started
  obtain rfl := Option.some.inj (decoded.symm.trans decoded')
  have held := Held.start named
  refine ⟨⟨held, positive, by simp, named, Nat.le_refl _, ?_⟩, ?_, ?_⟩
  · intro other inside total bestTotal sum bestSum
    rw [List.mem_singleton.mp inside] at sum
    exact Nat.le_of_eq (held.forest.total_unique sum bestSum)
  · have alone := ChainOf.start (toNode first)
    rwa [toNode_hash named] at alone
  · simp only [UnorderedMap.insert_apply, if_true, Option.isSome_some]

variable (whole : Whole first accepted client best)

include whole

theorem canonical_iff (n : Nat) (hash : H256) : client.canonicalHeaderHashes n = some hash ↔
    ∃ older, Descends (accepted.map toNode) (toNode best) older ∧ older.number = n ∧
      older.hash = hash := by
  constructor
  · exact whole.chain.ancestors n hash
  · rintro ⟨older, path, rfl, rfl⟩
    have tree := whole.kept.held.forest.tree
    have lower := tree.above older (Descends.mem path (List.mem_map_of_mem whole.kept.member))
    obtain ⟨found, here⟩ := Option.isSome_iff_exists.mp
      (whole.chain.filled _ older.number whole.bottom lower (Descends.number_le path))
    obtain ⟨other, path', level, rfl⟩ := whole.chain.ancestors _ _ here
    rw [here, tree.descends_unique path' path level]

/-- Every info and header is still there. -/
theorem infos_isSome {node : Node} (member : node ∈ accepted.map toNode) :
    (client.infos node.hash).isSome := by
  obtain ⟨header, inside, rfl⟩ := List.mem_map.mp member
  obtain ⟨info, found, -⟩ := whole.kept.held.info inside (whole.kept.held.forest.above header inside)
  exact Option.isSome_of_eq_some found

/-- The walk under a new best header meets the old chain at the first header at the
latest. -/
theorem recoverable {header older : BlockHeader}
    (attaches : Attaches accepted first.number.toNat header older) (threshold : Nat) :
    Recoverable (toNode first) (accepted.map toNode) client.canonicalHeaderHashes client.infos threshold
      (toNode header) where
  reached := by
    intro n hash found below recent
    refine .inr fun k ancestor above ancestry => ?_
    obtain ⟨_, _, oldest, member, _, rfl, _⟩ := ancestry
    exact whole.infos_isSome member
  bounded := by
    intro _ _ apart
    have tree := whole.kept.held.forest.tree
    have parent : toNode older ∈ accepted.map toNode := List.mem_map_of_mem attaches.parent
    have meets := (whole.canonical_iff first.number.toNat (toNode first).hash).mpr
      ⟨_, tree.descends_root (List.mem_map_of_mem whole.kept.member), rfl, rfl⟩
    refine absurd ?_ (apart _ _ meets)
    exact ⟨toNode older, parent, toNode first, tree.root, toNode_hash attaches.hash, rfl, rfl,
      tree.descends_root parent⟩

variable {header older : BlockHeader} (attaches : Attaches accepted first.number.toNat header older)

include attaches

/-- A header that fits is recorded. -/
theorem accepts (small : header.number.toNat + client.finalizedGcThreshold < 2 ^ 64)
    (window : best.number.toNat < first.number.toNat + client.finalizedGcThreshold)
    (fits : ∀ total, TotalDifficulty first (accepted ++ [header]) header total → total < 2 ^ 256) :
    ∃ hash bestInfo parentInfo, Accepts client header hash bestInfo parentInfo := by
  have held := whole.kept.held
  have number := attaches.number
  have lower := attaches.lower
  obtain ⟨hash, named⟩ := Option.isSome_iff_exists.mp attaches.hashed
  obtain ⟨bestInfo, found, bestNumber, -⟩ := whole.kept.info_best
  obtain ⟨parentInfo, present, -, total⟩ := held.info attaches.parent attaches.lower
  rw [toNode_hash attaches.hash] at present
  refine ⟨hash, bestInfo, parentInfo, found, named, small, by omega, present, fun known => ?_, ?_,
    fun _ => by omega⟩
  · obtain ⟨-, node, member, same, -⟩ := (held.stored.known _ _).mp known
    rw [← toNode_hash named] at same
    exact attaches.fresh_node held.forest node member same
  · exact fits _ (.child attaches.link (total.mono (List.subset_append_left _ _)))

variable {hash : H256} {bestInfo parentInfo : HeaderInfo}
  (accepts : Accepts client header hash bestInfo parentInfo)

include accepts

theorem insertHeader (worse : client.wouldBeBest header = false) :
    Whole first (accepted ++ [header]) (client.recorded header hash bestInfo parentInfo) best := by
  refine ⟨whole.kept.insertHeader attaches accepts worse, ?_, ?_⟩ <;>
    rw [Client.recorded, if_neg (by rw [worse]; decide)]
  · rw [List.map_append]
    exact whole.chain.mono (List.subset_append_left _ _)
  · exact whole.bottom

/-- The chain under the new best header still reaches the first one. -/
theorem bottom_updateCanonical
    (recent : header.number.toNat < first.number.toNat + client.hashesGcThreshold) :
    (((client.insertHeader header hash (childInfo parentInfo header)).updateCanonical hash
      (childInfo parentInfo header) bestInfo).canonicalHeaderHashes first.number.toNat).isSome := by
  have number := attaches.number
  have lower := attaches.lower
  have above : ∀ n, bestInfo.number < n → client.canonicalHeaderHashes n = none := by
    rw [whole.kept.bestNumber accepts]
    exact whole.chain.none_above
  have kept : ∀ canonical : UnorderedMap Nat H256, (if (childInfo parentInfo header).number ≥
      client.hashesGcThreshold then gcCanonicalChain ((childInfo parentInfo header).number -
        client.hashesGcThreshold) canonical else canonical) first.number.toNat =
      canonical first.number.toNat := by
    intro canonical
    split
    · refine gcCanonicalChain_above ?_ canonical
      simp only [childInfo] at *
      omega
    · rfl
  simp only [Client.updateCanonical, canonicalUnder_recorded attaches accepts.named above]
  rw [show (client.insertHeader header hash (childInfo parentInfo header)).hashesGcThreshold =
    client.hashesGcThreshold from rfl, kept]
  obtain ⟨stop, -, filled, others⟩ := replacePast_range
    (client.infos.insert hash (childInfo parentInfo header)) older.number.toNat header.parentHash
    (cleared client.canonicalHeaderHashes (toNode header))
  by_cases inside : stop ≤ first.number.toNat
  · exact filled _ inside lower
  · rw [others _ (.inl (by omega)), cleared_below (show first.number.toNat < header.number.toNat by omega)]
    exact whole.bottom

/-- A new best header; nothing is collected under it. -/
theorem updateCanonical (better : client.wouldBeBest header = true)
    (window : header.number.toNat < first.number.toNat + client.finalizedGcThreshold)
    (recent : header.number.toNat < first.number.toNat + client.hashesGcThreshold) :
    Whole first (accepted ++ [header]) (client.recorded header hash bestInfo parentInfo) header := by
  have kept := whole.kept.updateCanonical attaches accepts better
  rw [Nat.max_eq_left (by omega)] at kept
  have held := whole.kept.held
  have chain : ChainOf (accepted.map toNode ++ [toNode header]) (toNode header)
      ((client.insertHeader header (toNode header).hash (childInfo parentInfo header)).updateCanonical
        (toNode header).hash (childInfo parentInfo header) bestInfo).canonicalHeaderHashes :=
    chainOf_updateCanonical held.forest.tree held.stored whole.chain (List.mem_map_of_mem whole.kept.member)
      whole.kept.low (List.mem_map_of_mem attaches.parent) (toNode_hash attaches.hash) attaches.number
      (attaches.fresh_node held.forest) rfl rfl (whole.kept.bestNumber accepts)
      (whole.recoverable attaches _)
  rw [toNode_hash accepts.named] at chain
  refine ⟨kept, ?_, ?_⟩ <;> rw [Client.recorded, if_pos better]
  · rw [List.map_append]
    exact chain
  · exact whole.bottom_updateCanonical attaches accepts recent

end Whole

section Determined

variable {first best : BlockHeader} {accepted more : List BlockHeader} {left right : Client}
  (one : Whole first accepted left best) (two : Whole first more right best)

include one two

theorem canonical_le (contained : accepted ⊆ more) {n : Nat} {hash : H256}
    (found : left.canonicalHeaderHashes n = some hash) :
    right.canonicalHeaderHashes n = some hash := by
  obtain ⟨older, path, rest⟩ := (one.canonical_iff n hash).mp found
  exact (two.canonical_iff n hash).mpr
    ⟨older, Descends.mono (List.map_subset toNode contained) path, rest⟩

theorem headers_le (contained : accepted ⊆ more) {hash : H256} {header : BlockHeader}
    (found : left.headers hash = some header) : right.headers hash = some header := by
  obtain ⟨member, named, -⟩ := one.kept.held.of_header found
  have held := two.kept.held
  have same := held.headers header (contained member) (held.forest.above header (contained member))
  rwa [toNode_hash named] at same

theorem infos_le (contained : accepted ⊆ more) {hash : H256} {info : HeaderInfo}
    (found : left.infos hash = some info) : right.infos hash = some info := by
  obtain ⟨header, member, named, -, number, total, parentHash⟩ := one.kept.held.of_info found
  have held := two.kept.held
  obtain ⟨info', found', number', total'⟩ :=
    held.info (contained member) (held.forest.above header (contained member))
  rw [toNode_hash named] at found'
  obtain ⟨header', member', named', -, -, -, parentHash'⟩ := held.of_info found'
  obtain rfl := held.forest.unique header (contained member) header' member' (named.trans named'.symm)
  refine found'.trans (congrArg some ?_)
  have parents : info'.parentHash = info.parentHash := by
    by_cases root : header = first
    · subst root
      rw [← toNode_hash named] at found found'
      rw [held.origin info' found', one.kept.held.origin info found]
    · rw [parentHash root, parentHash' root]
  have totals := held.forest.total_unique total' (total.mono contained)
  cases info
  cases info'
  simp only [HeaderInfo.mk.injEq] at *
  exact ⟨totals, parents, number'.trans number.symm⟩

theorem known_le (contained : accepted ⊆ more) {n : Nat} {hash : H256}
    (known : hash ∈ left.knownHashes n) : hash ∈ right.knownHashes n := by
  obtain ⟨info, found, number⟩ := (one.kept.held.known_iff n hash).mp known
  exact (two.kept.held.known_iff n hash).mpr ⟨info, infos_le one two contained found, number⟩

end Determined

/-- Two whole clients with the same headers and the same best one are equal, but for
the order of the known hashes. -/
theorem Whole.eq_of_mem {first best : BlockHeader} {accepted more : List BlockHeader} {left right : Client}
    (one : Whole first accepted left best) (two : Whole first more right best)
    (contained : accepted ⊆ more) (contains : more ⊆ accepted) :
    left.bestHeaderHash = right.bestHeaderHash ∧
      left.canonicalHeaderHashes = right.canonicalHeaderHashes ∧ left.headers = right.headers ∧
      left.infos = right.infos ∧
      ∀ n, (left.allHeaderHashes n).map List.toFinset = (right.allHeaderHashes n).map List.toFinset := by
  refine ⟨Option.some.inj (one.kept.hash.symm.trans two.kept.hash), funext fun n => Option.ext fun hash =>
      ⟨canonical_le one two contained, canonical_le two one contains⟩,
    funext fun hash => Option.ext fun header =>
      ⟨headers_le one two contained, headers_le two one contains⟩,
    funext fun hash => Option.ext fun info =>
      ⟨infos_le one two contained, infos_le two one contains⟩, fun n => ?_⟩
  have known : ∀ hash, hash ∈ left.knownHashes n ↔ hash ∈ right.knownHashes n :=
    fun hash => ⟨known_le one two contained, known_le two one contains⟩
  simp only [Client.knownHashes] at known
  cases found : left.allHeaderHashes n with
  | none =>
    cases found' : right.allHeaderHashes n with
    | none => rfl
    | some hashes =>
      obtain ⟨hash, member⟩ := List.exists_mem_of_ne_nil _ (two.kept.held.list_ne_nil found')
      rw [found, found'] at known
      exact absurd ((known hash).mpr member) List.not_mem_nil
  | some hashes =>
    cases found' : right.allHeaderHashes n with
    | none =>
      obtain ⟨hash, member⟩ := List.exists_mem_of_ne_nil _ (one.kept.held.list_ne_nil found)
      rw [found, found'] at known
      exact absurd ((known hash).mp member) List.not_mem_nil
    | some hashes' =>
      rw [found, found'] at known
      refine congrArg some (Finset.ext fun hash => ?_)
      simpa using known hash

section Order

variable {first : BlockHeader} {headers order : List BlockHeader} (tree : HeaderTree first headers)
  (perm : order.Perm headers) (parents : ParentFirst first order)

include tree perm parents

/-- The next header of an order stands on the ones before it. -/
theorem attaches_of_order {client : Client} {before after : List BlockHeader} {header best : BlockHeader}
    (split : order = before ++ header :: after) (whole : Whole first (first :: before) client best) :
    ∃ older, Attaches (first :: before) first.number.toNat header older := by
  have inside : ∀ other ∈ first :: before, other ∈ first :: headers := by
    intro other member
    apply (perm.cons first).subset
    rw [split]
    rcases List.mem_cons.mp member with same | later
    · exact List.mem_cons.mpr (.inl same)
    · exact List.mem_cons_of_mem _ (List.mem_append_left _ later)
  have member : header ∈ headers := perm.subset (by rw [split]; simp)
  have distinct : ((first :: order).map BlockHeader.hash).Nodup :=
    ((perm.cons first).map BlockHeader.hash).nodup_iff.mpr tree.distinct
  obtain ⟨older, parent, hash⟩ := parents before header after split
  obtain ⟨older', parent', hash', number⟩ := tree.linked header member
  obtain rfl : older = older' :=
    List.inj_on_of_nodup_map tree.distinct (inside older parent) parent' (hash.trans hash'.symm)
  refine ⟨older, tree.hashed header (List.mem_cons_of_mem _ member), parent,
    whole.kept.held.forest.above older parent, hash, number, fun other known same => ?_⟩
  rw [split, ← List.cons_append, List.map_append, List.nodup_append] at distinct
  exact distinct.2.2 _ (List.mem_map_of_mem known) _ (List.mem_map_of_mem List.mem_cons_self) same

variable {config : Config}
  (window : ∀ header ∈ first :: headers,
    header.number.toNat + 1 < first.number.toNat + config.finalizedGcThreshold)
  (recent : ∀ header ∈ first :: headers,
    header.number.toNat + 1 < first.number.toNat + config.hashesGcThreshold)
  (small : ∀ header ∈ headers, header.number.toNat + config.finalizedGcThreshold < 2 ^ 64)
  (fits : ∀ header ∈ first :: headers, ∀ total,
    TotalDifficulty first (first :: headers) header total → total < 2 ^ 256)

include window recent small fits

/-- All headers of an order are recorded. -/
theorem recordAll_whole (rest before : List BlockHeader) (split : order = before ++ rest) {client : Client}
    {best : BlockHeader} (whole : Whole first (first :: before) client best)
    (finalized : client.finalizedGcThreshold = config.finalizedGcThreshold)
    (hashes : client.hashesGcThreshold = config.hashesGcThreshold) :
    ∃ after best, recordAll client rest = some after ∧ Whole first (first :: order) after best := by
  induction rest generalizing before client best with
  | nil =>
    rw [List.append_nil] at split
    rw [split]
    exact ⟨client, best, rfl, whole⟩
  | cons header rest ih =>
    have inside : first :: before ++ [header] ⊆ first :: headers := by
      refine List.Subset.trans ?_ (perm.cons first).subset
      rw [split]
      simp
    have member : header ∈ first :: headers := inside (by simp)
    have known : header ∈ headers := perm.subset (by rw [split]; simp)
    obtain ⟨older, attaches⟩ := attaches_of_order tree perm parents split whole
    have bestWindow := window best (inside (List.mem_append_left _ whole.kept.member))
    have headerWindow := window header member
    have headerRecent := recent header member
    obtain ⟨hash, bestInfo, parentInfo, accepts⟩ := whole.accepts attaches
      (by rw [finalized]; exact small header known) (by omega)
      fun total sum => fits header member total (sum.mono inside)
    obtain ⟨-, same, same'⟩ := recorded_settings client header hash bestInfo parentInfo
    obtain ⟨best', next⟩ : ∃ best', Whole first (first :: before ++ [header])
        (client.recorded header hash bestInfo parentInfo) best' := by
      cases better : client.wouldBeBest header with
      | true => exact ⟨header, whole.updateCanonical attaches accepts better (by omega) (by omega)⟩
      | false => exact ⟨best, whole.insertHeader attaches accepts better⟩
    obtain ⟨after, last, recorded, final⟩ := ih (before ++ [header]) (by rw [split]; simp) next
      (same'.trans finalized) (same.trans hashes)
    refine ⟨after, last, ?_, final⟩
    rw [recordAll, List.foldlM_cons, recordHeader_eq_some.mpr ⟨_, _, _, accepts, rfl⟩]
    exact recorded

end Order

/-- The best header of a whole client is the heaviest one. -/
theorem Whole.best_eq {first best heaviest : BlockHeader} {headers order : List BlockHeader}
    {client : Client} (perm : order.Perm headers) (whole : Whole first (first :: order) client best)
    (member : heaviest ∈ first :: headers)
    (most : ∀ header ∈ first :: headers, header ≠ heaviest → ∀ total bestTotal,
      TotalDifficulty first (first :: headers) header total →
      TotalDifficulty first (first :: headers) heaviest bestTotal → total < bestTotal) :
    best = heaviest := by
  by_contra different
  have contained : first :: order ⊆ first :: headers := (perm.cons first).subset
  have known : heaviest ∈ first :: order := (perm.cons first).symm.subset member
  obtain ⟨total, sum⟩ := whole.kept.held.forest.exists_total whole.kept.member
  obtain ⟨most', sum'⟩ := whole.kept.held.forest.exists_total known
  have bound := whole.kept.heaviest heaviest known most' total sum' sum
  have strict := most best (contained whole.kept.member) different total most' (sum.mono contained)
    (sum'.mono contained)
  omega

/-- Whatever the order in which a tree of headers is recorded, parents first, the
client ends in the same state. -/
theorem submission_order [Hashing] (crate : RlpCrate) (eip1559 : Bool) (config : Config) (client : Client)
    (first : BlockHeader) (headers order order' : List BlockHeader)
    (started : init crate eip1559 none config = some client)
    (decoded : BlockHeader.decode crate eip1559 config.firstHeader = some first)
    (tree : HeaderTree first headers)
    (window : ∀ header ∈ first :: headers,
      header.number.toNat + 1 < first.number.toNat + config.finalizedGcThreshold)
    (recent : ∀ header ∈ first :: headers,
      header.number.toNat + 1 < first.number.toNat + config.hashesGcThreshold)
    (heaviest : UniqueHeaviest first headers)
    (small : ∀ header ∈ headers, header.number.toNat + config.finalizedGcThreshold < 2 ^ 64)
    (fits : ∀ header ∈ first :: headers, ∀ total,
      TotalDifficulty first (first :: headers) header total → total < 2 ^ 256)
    (perm : order.Perm headers) (perm' : order'.Perm headers) (parents : ParentFirst first order)
    (parents' : ParentFirst first order') :
    ∃ left right, recordAll client order = some left ∧ recordAll client order' = some right ∧
      left.bestHeaderHash = right.bestHeaderHash ∧
      left.canonicalHeaderHashes = right.canonicalHeaderHashes ∧ left.headers = right.headers ∧
      left.infos = right.infos ∧
      ∀ n, (left.allHeaderHashes n).map List.toFinset = (right.allHeaderHashes n).map List.toFinset := by
  have positive : 0 < config.finalizedGcThreshold := by
    have bound := window first List.mem_cons_self
    omega
  have whole := Whole.start started decoded positive
  have settings : client.finalizedGcThreshold = config.finalizedGcThreshold ∧
      client.hashesGcThreshold = config.hashesGcThreshold := by
    simp only [init, Option.bind_eq_bind, Option.bind_eq_some_iff, Option.pure_def,
      Option.some.injEq] at started
    obtain ⟨-, -, header, -, hash, -, rfl⟩ := started
    exact ⟨rfl, rfl⟩
  obtain ⟨left, best, recorded, one⟩ := recordAll_whole tree perm parents window recent small fits order []
    rfl whole settings.1 settings.2
  obtain ⟨right, best', recorded', two⟩ := recordAll_whole tree perm' parents' window recent small fits
    order' [] rfl whole settings.1 settings.2
  obtain ⟨top, member, most⟩ := heaviest
  obtain rfl := one.best_eq perm member most
  obtain rfl := two.best_eq perm' member most
  have same : (first :: order).Perm (first :: order') := (perm.trans perm'.symm).cons first
  exact ⟨left, right, recorded, recorded', one.eq_of_mem two same.subset same.symm.subset⟩

theorem HeaderTree.forest {first : BlockHeader} {headers : List BlockHeader}
    (tree : HeaderTree first headers) : Forest first (first :: headers) where
  root := List.mem_cons_self
  nodup := tree.distinct.of_map _
  hashed := tree.hashed
  unique := fun _ member _ member' same => List.inj_on_of_nodup_map tree.distinct member member' same
  linked := by
    intro header member
    rcases List.mem_cons.mp member with same | later
    · exact .inl same
    · obtain ⟨older, parent, hash, number⟩ := tree.linked header later
      exact .inr ⟨older, member, parent, hash, number⟩
  above := by
    intro header member
    obtain ⟨number, height⟩ : ∃ number, header.number.toNat = number := ⟨_, rfl⟩
    induction number generalizing header with
    | zero =>
      rcases List.mem_cons.mp member with rfl | later
      · exact Nat.le_refl _
      · obtain ⟨older, -, -, step⟩ := tree.linked header later
        omega
    | succ number ih =>
      rcases List.mem_cons.mp member with rfl | later
      · exact Nat.le_refl _
      · obtain ⟨older, parent, -, step⟩ := tree.linked header later
        have bound := ih older parent (by omega)
        omega

section Sample

/-- A tree of height one. -/
structure Siblings (first : BlockHeader) (headers : List BlockHeader) : Prop where
  hashed : ∀ header ∈ first :: headers, header.hash.isSome
  distinct : ((first :: headers).map BlockHeader.hash).Nodup
  children : ∀ header ∈ headers, first.hash = some header.parentHash ∧
    header.number.toNat = first.number.toNat + 1

variable {first : BlockHeader} {headers : List BlockHeader} (siblings : Siblings first headers)

include siblings

theorem Siblings.tree : HeaderTree first headers where
  hashed := siblings.hashed
  distinct := siblings.distinct
  linked := fun header member => ⟨first, List.mem_cons_self, siblings.children header member⟩

theorem Siblings.parentFirst {order : List BlockHeader} (perm : order.Perm headers) :
    ParentFirst first order := by
  rintro before header after rfl
  exact ⟨first, List.mem_cons_self, (siblings.children header (perm.subset (by simp))).1⟩

theorem Siblings.total {header : BlockHeader} (member : header ∈ headers) {total : Nat}
    (sum : TotalDifficulty first (first :: headers) header total) : total = header.difficulty.toNat := by
  obtain ⟨hash, number⟩ := siblings.children header member
  have link : ChildOf (first :: headers) header first :=
    ⟨List.mem_cons_of_mem _ member, List.mem_cons_self, hash, number⟩
  have same := siblings.tree.forest.total_unique sum (.child link (.first first _))
  rwa [Nat.zero_add] at same

theorem Siblings.total_first {total : Nat}
    (sum : TotalDifficulty first (first :: headers) first total) : total = 0 :=
  siblings.tree.forest.total_unique sum (.first first _)

theorem Siblings.uniqueHeaviest {best : BlockHeader} (member : best ∈ headers)
    (positive : 0 < best.difficulty.toNat)
    (most : ∀ other ∈ headers, other ≠ best → other.difficulty.toNat < best.difficulty.toNat) :
    UniqueHeaviest first headers := by
  refine ⟨best, List.mem_cons_of_mem _ member, fun header inside different total bestTotal sum bestSum => ?_⟩
  rw [siblings.total member bestSum]
  rcases List.mem_cons.mp inside with rfl | later
  · rwa [siblings.total_first sum]
  · rw [siblings.total later sum]
    exact most header later different

omit siblings

def siblingConfig (threshold : Nat) : Config :=
  { sampleConfig with hashesGcThreshold := threshold, finalizedGcThreshold := threshold }

/-- What the samples need of a decoded header. -/
def summary (header : BlockHeader) : Option H256 × Node × Nat :=
  (header.hash, toNode header, header.difficulty.toNat)

theorem summaries :
    letI := Hashing.lookup growingDigests
    [firstBlock, rightBlock 1, heavyBlock].map (fun block =>
      (BlockHeader.decode .reference true block.2).map summary) =
    [some (some firstBlock.1.hash, firstBlock.1, 1), some (some (rightBlock 1).1.hash, (rightBlock 1).1, 1),
      some (some heavyBlock.1.hash, heavyBlock.1, 5)] := by
  decide +kernel

/-- The first header with two children. -/
theorem siblings_sample :
    letI := Hashing.lookup growingDigests
    ∃ first light heavy, BlockHeader.decode .reference true firstBlock.2 = some first ∧
      BlockHeader.decode .reference true (rightBlock 1).2 = some light ∧
      BlockHeader.decode .reference true heavyBlock.2 = some heavy ∧ Siblings first [light, heavy] ∧
      UniqueHeaviest first [light, heavy] ∧ first.number.toNat = 0 ∧ light.number.toNat = 1 ∧
      heavy.number.toNat = 1 := by
  let := Hashing.lookup growingDigests
  have computed := summaries
  simp only [List.map_cons, List.map_nil, List.cons.injEq, and_true] at computed
  obtain ⟨root, one, two⟩ := computed
  obtain ⟨first, decoded, root⟩ := Option.map_eq_some_iff.mp root
  obtain ⟨light, decoded', one⟩ := Option.map_eq_some_iff.mp one
  obtain ⟨heavy, decoded'', two⟩ := Option.map_eq_some_iff.mp two
  simp only [summary, Prod.mk.injEq] at root one two
  have number : first.number.toNat = 0 := congrArg Node.number root.2.1
  have number' : light.number.toNat = 1 := congrArg Node.number one.2.1
  have number'' : heavy.number.toNat = 1 := congrArg Node.number two.2.1
  have parent : light.parentHash = firstBlock.1.hash := congrArg Node.parentHash one.2.1
  have parent' : heavy.parentHash = firstBlock.1.hash := congrArg Node.parentHash two.2.1
  have siblings : Siblings first [light, heavy] := by
    refine ⟨?_, ?_, ?_⟩
    · simp [root.1, one.1, two.1]
    · simp only [List.map_cons, List.map_nil, root.1, one.1, two.1]
      decide +kernel
    · simp [root.1, parent, parent', number, number', number'']
  refine ⟨first, light, heavy, decoded, decoded', decoded'', siblings, ?_, number, number', number''⟩
  refine siblings.uniqueHeaviest (List.mem_cons_of_mem _ List.mem_cons_self) (by omega) ?_
  intro other member different
  rcases List.mem_cons.mp member with rfl | last
  · omega
  · exact absurd (List.mem_singleton.mp last) different

/-- Two children of the first header, recorded in both orders. -/
theorem submission_order_sample :
    letI := Hashing.lookup growingDigests
    ∃ client light heavy, init .reference true none (siblingConfig 100) = some client ∧
      BlockHeader.decode .reference true (rightBlock 1).2 = some light ∧
      BlockHeader.decode .reference true heavyBlock.2 = some heavy ∧
      ∃ one two, recordAll client [light, heavy] = some one ∧ recordAll client [heavy, light] = some two ∧
        one.bestHeaderHash = two.bestHeaderHash ∧
        one.canonicalHeaderHashes = two.canonicalHeaderHashes := by
  let := Hashing.lookup growingDigests
  obtain ⟨first, light, heavy, decoded, decoded', decoded'', siblings, heaviest, zero, one, one'⟩ :=
    siblings_sample
  have started : (init .reference true none (siblingConfig 100)).isSome := by
    decide +kernel
  obtain ⟨client, started⟩ := Option.isSome_iff_exists.mp started
  have fits : ∀ header ∈ first :: [light, heavy], ∀ total,
      TotalDifficulty first (first :: [light, heavy]) header total → total < 2 ^ 256 := by
    intro header member total sum
    rcases List.mem_cons.mp member with rfl | later
    · rw [siblings.total_first sum]
      decide
    · rw [siblings.total later sum]
      exact header.difficulty.isLt
  have numbers : ∀ header ∈ first :: [light, heavy], header.number.toNat + 1 < first.number.toNat + 100 := by
    simp [zero, one, one']
  have perm : [heavy, light].Perm [light, heavy] := List.Perm.swap _ _ _
  obtain ⟨state, state', recorded, recorded', best, canonical, -⟩ := submission_order .reference true
    (siblingConfig 100) client first [light, heavy] [light, heavy] [heavy, light] started decoded siblings.tree
    numbers numbers heaviest (by simp [siblingConfig, one, one']) fits (List.Perm.refl _) perm
    (siblings.parentFirst (List.Perm.refl _)) (siblings.parentFirst perm)
  exact ⟨client, light, heavy, started, decoded', decoded'', state, state', recorded, recorded', best,
    canonical⟩

/-- With the largest threshold no header can be recorded: its number and the
threshold overflow. -/
theorem order_overflow :
    letI := Hashing.platform
    ∃ client first light heavy,
      init .reference true none (siblingConfig (2 ^ 64 - 1)) = some client ∧
      BlockHeader.decode .reference true (siblingConfig (2 ^ 64 - 1)).firstHeader = some first ∧
      HeaderTree first [light, heavy] ∧ UniqueHeaviest first [light, heavy] ∧
      (∀ header ∈ first :: [light, heavy],
        header.number.toNat + 1 < first.number.toNat + (2 ^ 64 - 1)) ∧
      ParentFirst first [light, heavy] ∧ recordAll client [light, heavy] = none := by
  rw [← growingDigests_right]
  let := Hashing.lookup growingDigests
  obtain ⟨first, light, heavy, decoded, decoded', decoded'', siblings, heaviest, zero, one, one'⟩ :=
    siblings_sample
  have computed : (init .reference true none (siblingConfig (2 ^ 64 - 1))).map (fun client =>
      (BlockHeader.decode .reference true (rightBlock 1).2).bind fun light =>
        (client.recordHeader light).map fun _ => ()) = some none := by
    decide +kernel
  obtain ⟨client, started, refused⟩ := Option.map_eq_some_iff.mp computed
  rw [decoded', Option.bind_some, Option.map_eq_none_iff] at refused
  refine ⟨client, first, light, heavy, started, decoded, siblings.tree, heaviest, ?_,
    siblings.parentFirst (List.Perm.refl _), ?_⟩
  · simp [zero, one, one']
  · rw [recordAll, List.foldlM_cons, refused]
    rfl

end Sample

end RainbowBridge.EthClient
