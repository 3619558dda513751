import RainbowBridge.EthClient.Runs

/-! All headers that the client has ever accepted, with their contents: what it
still stores of them, and their total difficulties along their lineages from the
first header. -/

namespace RainbowBridge.EthClient

open Lib EthTypes Near

/-- A header as a node of the tree. -/
def toNode (header : BlockHeader) : Node :=
  ⟨header.hash.getD (zeroBytes 32), header.parentHash, header.number.toNat⟩

theorem toNode_hash {header : BlockHeader} {hash : H256} (named : header.hash = some hash) :
    (toNode header).hash = hash := by
  rw [toNode, named, Option.getD_some]

/-- The accepted header is the child of another one. -/
structure ChildOf (accepted : List BlockHeader) (child older : BlockHeader) : Prop where
  childMem : child ∈ accepted
  olderMem : older ∈ accepted
  hash : older.hash = some child.parentHash
  number : child.number.toNat = older.number.toNat + 1

/-- The sum of the difficulties along the lineage of a header, from the header
after the first one on. -/
def TotalDifficulty (first : BlockHeader) (accepted : List BlockHeader) (header : BlockHeader)
    (total : Nat) : Prop :=
  ∃ path, Lineage (ChildOf accepted) first header path ∧
    total = (path.map fun header => header.difficulty.toNat).sum

theorem ChildOf.mono {accepted more : List BlockHeader} (contained : accepted ⊆ more)
    {child older : BlockHeader} (link : ChildOf accepted child older) : ChildOf more child older :=
  ⟨contained link.childMem, contained link.olderMem, link.hash, link.number⟩

theorem TotalDifficulty.mono {first header : BlockHeader} {accepted more : List BlockHeader}
    (contained : accepted ⊆ more) {total : Nat} (sum : TotalDifficulty first accepted header total) :
    TotalDifficulty first more header total := by
  obtain ⟨path, lineage, rfl⟩ := sum
  exact ⟨path, lineage.mono fun _ _ link => link.mono contained, rfl⟩

theorem TotalDifficulty.first (first : BlockHeader) (accepted : List BlockHeader) :
    TotalDifficulty first accepted first 0 :=
  ⟨[], .root, rfl⟩

theorem TotalDifficulty.child {first header older : BlockHeader} {accepted : List BlockHeader}
    {total : Nat} (link : ChildOf accepted header older)
    (sum : TotalDifficulty first accepted older total) :
    TotalDifficulty first accepted header (total + header.difficulty.toNat) := by
  obtain ⟨path, lineage, rfl⟩ := sum
  exact ⟨header :: path, .child link lineage, by simp [Nat.add_comm]⟩

/-- The accepted headers form a tree, and hashes name them. -/
structure Forest (first : BlockHeader) (accepted : List BlockHeader) : Prop where
  root : first ∈ accepted
  nodup : accepted.Nodup
  hashed : ∀ header ∈ accepted, header.hash.isSome
  unique : ∀ header ∈ accepted, ∀ other ∈ accepted, header.hash = other.hash → header = other
  linked : ∀ header ∈ accepted, header = first ∨ ∃ older, ChildOf accepted header older
  above : ∀ header ∈ accepted, first.number.toNat ≤ header.number.toNat

namespace Forest

variable {first header : BlockHeader} {accepted : List BlockHeader}

theorem start {first : BlockHeader} (hashed : first.hash.isSome) : Forest first [first] where
  root := by simp
  nodup := List.nodup_singleton first
  hashed := by
    intro header member
    rwa [List.mem_singleton.mp member]
  unique := by
    intro header member other member' _
    rw [List.mem_singleton.mp member, List.mem_singleton.mp member']
  linked := fun header member => .inl (List.mem_singleton.mp member)
  above := by
    intro header member
    rw [List.mem_singleton.mp member]

variable (forest : Forest first accepted)

include forest

theorem hash_eq (member : header ∈ accepted) : header.hash = some (toNode header).hash := by
  obtain ⟨hash, named⟩ := Option.isSome_iff_exists.mp (forest.hashed header member)
  rw [toNode_hash named, named]

/-- Nodes of accepted headers with one hash are one header. -/
theorem eq_of_hash {other : BlockHeader} (member : header ∈ accepted) (member' : other ∈ accepted)
    (same : (toNode header).hash = (toNode other).hash) : header = other :=
  forest.unique header member other member' (by
    rw [forest.hash_eq member, forest.hash_eq member', same])

theorem rightUnique : Relator.RightUnique (ChildOf accepted) := by
  intro child older other link link'
  exact forest.unique older link.olderMem other link'.olderMem (link.hash.trans link'.hash.symm)

theorem first_alone (older : BlockHeader) : ¬ ChildOf accepted first older := by
  intro link
  have bound := forest.above older link.olderMem
  have number := link.number
  omega

theorem total_unique {total other : Nat} (sum : TotalDifficulty first accepted header total)
    (sum' : TotalDifficulty first accepted header other) : total = other := by
  obtain ⟨path, lineage, rfl⟩ := sum
  obtain ⟨path', lineage', rfl⟩ := sum'
  rw [lineage.unique forest.rightUnique forest.first_alone lineage']

theorem exists_total (member : header ∈ accepted) :
    ∃ total, TotalDifficulty first accepted header total := by
  have below : ∀ child older, ChildOf accepted child older →
      child.number.toNat = older.number.toNat + 1 := fun _ _ link => link.number
  have linked : ∀ header, header ∈ accepted → header = first ∨
      ∃ older, older ∈ accepted ∧ ChildOf accepted header older := by
    intro header inside
    rcases forest.linked header inside with same | ⟨older, link⟩
    · exact .inl same
    · exact .inr ⟨older, link.olderMem, link⟩
  obtain ⟨path, lineage⟩ := exists_lineage below linked member
  exact ⟨_, path, lineage, rfl⟩

/-- The nodes of the headers form a tree. -/
theorem tree : Tree (toNode first) (accepted.map toNode) where
  root := List.mem_map_of_mem forest.root
  unique := by
    intro node member other member' same
    obtain ⟨header, inside, rfl⟩ := List.mem_map.mp member
    obtain ⟨header', inside', rfl⟩ := List.mem_map.mp member'
    rw [forest.eq_of_hash inside inside' same]
  linked := by
    intro node member different
    obtain ⟨header, inside, rfl⟩ := List.mem_map.mp member
    rcases forest.linked header inside with rfl | ⟨older, link⟩
    · exact absurd rfl different
    · exact ⟨toNode older, member, List.mem_map_of_mem link.olderMem, toNode_hash link.hash, link.number⟩
  above := by
    intro node member
    obtain ⟨header, inside, rfl⟩ := List.mem_map.mp member
    exact forest.above header inside

end Forest

/-- A new header stands on a stored one, and no accepted header has its hash. -/
structure Attaches (accepted : List BlockHeader) (low : Nat) (header older : BlockHeader) : Prop where
  hashed : header.hash.isSome
  parent : older ∈ accepted
  lower : low ≤ older.number.toNat
  hash : older.hash = some header.parentHash
  number : header.number.toNat = older.number.toNat + 1
  fresh : ∀ other ∈ accepted, other.hash ≠ header.hash

section Attach

variable {first header older : BlockHeader} {accepted : List BlockHeader} {low : Nat}
  (attaches : Attaches accepted low header older)

include attaches

theorem Attaches.link : ChildOf (accepted ++ [header]) header older :=
  ⟨by simp, List.mem_append_left _ attaches.parent, attaches.hash, attaches.number⟩

theorem Forest.extend (forest : Forest first accepted) : Forest first (accepted ++ [header]) := by
  have contained : accepted ⊆ accepted ++ [header] := List.subset_append_left _ _
  have absent : header ∉ accepted := fun known => attaches.fresh header known rfl
  refine ⟨contained forest.root,
    List.nodup_append_comm.mp (List.nodup_cons.mpr ⟨absent, forest.nodup⟩), fun other member => ?_,
    fun left member right member' same => ?_, fun other member => ?_, fun other member => ?_⟩
  · rcases List.mem_append.mp member with old | new
    · exact forest.hashed other old
    · rw [List.mem_singleton.mp new]
      exact attaches.hashed
  · rcases List.mem_append.mp member with old | new <;>
      rcases List.mem_append.mp member' with old' | new'
    · exact forest.unique left old right old' same
    · exact absurd (same.trans (by rw [List.mem_singleton.mp new'])) (attaches.fresh left old)
    · exact absurd (same.symm.trans (by rw [List.mem_singleton.mp new])) (attaches.fresh right old')
    · rw [List.mem_singleton.mp new, List.mem_singleton.mp new']
  · rcases List.mem_append.mp member with old | new
    · rcases forest.linked other old with same | ⟨parent, link⟩
      · exact .inl same
      · exact .inr ⟨parent, link.mono contained⟩
    · rw [List.mem_singleton.mp new]
      exact .inr ⟨older, attaches.link⟩
  · rcases List.mem_append.mp member with old | new
    · exact forest.above other old
    · have bound := forest.above older attaches.parent
      have number := attaches.number
      rw [List.mem_singleton.mp new]
      omega

theorem Attaches.fresh_node (forest : Forest first accepted) :
    ∀ other ∈ accepted.map toNode, other.hash ≠ (toNode header).hash := by
  intro node member same
  obtain ⟨other, inside, rfl⟩ := List.mem_map.mp member
  obtain ⟨hash, named⟩ := Option.isSome_iff_exists.mp attaches.hashed
  apply attaches.fresh other inside
  rw [forest.hash_eq inside, same, toNode_hash named, named]

end Attach

/-- What the client still has of the accepted headers: those with numbers from
`low` on, with their total difficulties. -/
structure Held (first : BlockHeader) (accepted : List BlockHeader) (low : Nat) (store : Store) :
    Prop where
  forest : Forest first accepted
  base : first.number.toNat ≤ low
  stored : Stored (toNode first) (accepted.map toNode) low store
  headers : ∀ header ∈ accepted, low ≤ header.number.toNat →
    store.headers (toNode header).hash = some header
  totals : ∀ header ∈ accepted, ∀ info, store.infos (toNode header).hash = some info →
    TotalDifficulty first accepted header info.totalDifficulty
  distinct : ∀ n, (store.knownHashes n).Nodup
  origin : ∀ info, store.infos (toNode first).hash = some info → info.parentHash = zeroBytes 32

namespace Held

variable {first header older : BlockHeader} {accepted : List BlockHeader} {low : Nat}

theorem start {first : BlockHeader} {hash : H256} (named : first.hash = some hash) :
    Held first [first] first.number.toNat
      ⟨UnorderedMap.insert (fun _ => none) first.number.toNat [hash],
        UnorderedMap.insert (fun _ => none) hash first,
        UnorderedMap.insert (fun _ => none) hash ⟨0, zeroBytes 32, first.number.toNat⟩⟩ where
  forest := Forest.start (by rw [named]; rfl)
  base := Nat.le_refl _
  stored := by
    rw [← toNode_hash named]
    exact Stored.start (toNode first) rfl rfl
  headers := by
    intro header member _
    rw [List.mem_singleton.mp member, toNode_hash named]
    simp only [UnorderedMap.insert_apply, if_true]
  totals := by
    intro header member info found
    rw [List.mem_singleton.mp member] at found ⊢
    rw [toNode_hash named] at found
    simp only [UnorderedMap.insert_apply, if_true, Option.some.injEq] at found
    rw [← found]
    exact .first first [first]
  distinct := by
    intro n
    simp only [Store.knownHashes, UnorderedMap.insert_apply]
    split
    · exact List.nodup_singleton hash
    · exact List.nodup_nil
  origin := by
    intro info found
    rw [toNode_hash named] at found
    simp only [UnorderedMap.insert_apply, if_true, Option.some.injEq] at found
    rw [← found]

/-- A stored header has its info, with what it says. -/
theorem info {store : Store} (held : Held first accepted low store) (member : header ∈ accepted)
    (lower : low ≤ header.number.toNat) :
    ∃ info, store.infos (toNode header).hash = some info ∧ info.number = header.number.toNat ∧
      TotalDifficulty first accepted header info.totalDifficulty := by
  obtain ⟨info, found, number, -⟩ := held.stored.infos (toNode header) (List.mem_map_of_mem member) lower
  exact ⟨info, found, number, held.totals header member info found⟩

/-- Every info is that of an accepted header that is still stored. -/
theorem of_info {store : Store} (held : Held first accepted low store) {hash : H256}
    {info : HeaderInfo} (found : store.infos hash = some info) :
    ∃ header ∈ accepted, header.hash = some hash ∧ low ≤ header.number.toNat ∧
      info.number = header.number.toNat ∧
      TotalDifficulty first accepted header info.totalDifficulty ∧
      (header ≠ first → info.parentHash = header.parentHash) := by
  obtain ⟨node, member, rfl, lower⟩ := held.stored.infosMem hash info found
  obtain ⟨header, inside, rfl⟩ := List.mem_map.mp member
  obtain ⟨info', found', number, -⟩ := held.stored.infos _ member lower
  obtain rfl := Option.some.inj (found.symm.trans found')
  refine ⟨header, inside, held.forest.hash_eq inside, lower, number, held.totals header inside _ found,
    fun other => ?_⟩
  refine held.stored.parentHash held.forest.tree member (fun same => other ?_) found
  exact held.forest.eq_of_hash inside held.forest.root (congrArg Node.hash same)

theorem of_header {store : Store} (held : Held first accepted low store) {hash : H256}
    (found : store.headers hash = some header) :
    header ∈ accepted ∧ header.hash = some hash ∧ low ≤ header.number.toNat := by
  obtain ⟨node, member, rfl, lower, -⟩ := held.stored.headersMem hash header found
  obtain ⟨other, inside, rfl⟩ := List.mem_map.mp member
  obtain rfl := Option.some.inj (found.symm.trans (held.headers other inside lower))
  exact ⟨inside, held.forest.hash_eq inside, lower⟩

variable {client : Client} {hash : H256} {info bestInfo parentInfo : HeaderInfo}

/-- Storing a header on top of a stored one. -/
theorem insertHeader (held : Held first accepted low client.store)
    (attaches : Attaches accepted low header older) (named : header.hash = some hash)
    (parent : client.infos header.parentHash = some parentInfo)
    (unknown : hash ∉ client.knownHashes header.number.toNat)
    (total : info.totalDifficulty = parentInfo.totalDifficulty + header.difficulty.toNat)
    (parentHash : info.parentHash = header.parentHash) (number : info.number = header.number.toNat) :
    Held first (accepted ++ [header]) low (client.insertHeader header hash info).store := by
  have contained : accepted ⊆ accepted ++ [header] := List.subset_append_left _ _
  have fresh := attaches.fresh_node held.forest
  obtain rfl := toNode_hash named
  refine ⟨held.forest.extend attaches, held.base, ?_, fun other member lower => ?_,
    fun other member info' found => ?_, fun n => ?_, fun info' found => ?_⟩
  · rw [List.map_append, List.map_singleton]
    exact stored_insertHeader held.stored (List.mem_map_of_mem attaches.parent) attaches.lower
      attaches.number fresh rfl number parentHash
  · simp only [Client.store, Client.insertHeader, UnorderedMap.insert_apply]
    rcases List.mem_append.mp member with old | new
    · rw [if_neg (fresh _ (List.mem_map_of_mem old))]
      exact held.headers other old lower
    · rw [List.mem_singleton.mp new, if_pos rfl]
  · simp only [Client.store, Client.insertHeader, UnorderedMap.insert_apply] at found
    rcases List.mem_append.mp member with old | new
    · rw [if_neg (fresh _ (List.mem_map_of_mem old))] at found
      exact (held.totals other old info' found).mono contained
    · rw [List.mem_singleton.mp new, if_pos rfl] at found
      rw [List.mem_singleton.mp new, ← Option.some.inj found, total]
      rw [← toNode_hash attaches.hash] at parent
      exact .child attaches.link ((held.totals older attaches.parent parentInfo parent).mono contained)
  · simp only [Client.store, Client.insertHeader, Store.knownHashes, UnorderedMap.insert_apply]
    split
    · rw [Option.getD_some, number]
      exact List.nodup_append_comm.mp (List.nodup_cons.mpr ⟨unknown, held.distinct header.number.toNat⟩)
    · exact held.distinct n
  · simp only [Client.store, Client.insertHeader, UnorderedMap.insert_apply] at found
    rw [if_neg (fresh _ (List.mem_map_of_mem held.forest.root))] at found
    exact held.origin info' found

/-- Collecting the headers that are too old under a new best one. -/
theorem updateCanonical (held : Held first accepted low client.store) (member : header ∈ accepted)
    (number : info.number = header.number.toNat) :
    Held first accepted (max low (header.number.toNat + 1 - client.finalizedGcThreshold))
      (client.updateCanonical hash info bestInfo).store := by
  have store : (client.updateCanonical hash info bestInfo).store =
      if header.number.toNat ≥ client.finalizedGcThreshold then
        gcHeaders (header.number.toNat - client.finalizedGcThreshold) client.store
      else client.store := by
    rw [← number]
    rfl
  rw [store]
  split
  · rename_i reached
    have collected := gcHeaders_collected (held.stored.closed (List.mem_map_of_mem member)
      (Nat.sub_le header.number.toNat client.finalizedGcThreshold))
    have bound : header.number.toNat + 1 - client.finalizedGcThreshold =
        header.number.toNat - client.finalizedGcThreshold + 1 := by
      omega
    rw [bound]
    refine ⟨held.forest, Nat.le_trans held.base (Nat.le_max_left _ _),
      held.stored.collect held.forest.tree collected, fun other inside lower => ?_,
      fun other inside info' found => ?_, fun n => ?_, fun info' found => ?_⟩
    · rw [collected.headers, if_neg (by
        rw [held.stored.upTo_iff held.forest.tree _ (List.mem_map_of_mem inside) (by
          simp only [toNode]
          omega)]
        simp only [toNode]
        omega)]
      exact held.headers other inside (by omega)
    · rw [collected.infos] at found
      split at found
      · cases found
      · exact held.totals other inside info' found
    · rw [Store.knownHashes, collected.numbers]
      split
      · exact List.nodup_nil
      · exact held.distinct n
    · rw [collected.infos] at found
      split at found
      · cases found
      · exact held.origin info' found
  · rename_i early
    rw [Nat.max_eq_left (by omega)]
    exact held

end Held

end RainbowBridge.EthClient
