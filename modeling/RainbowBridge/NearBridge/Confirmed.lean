import RainbowBridge.NearBridge.Tracks

/-! What the views say about confirmed blocks. The reads by height return what
the confirmed chain has there, and the chain only grows. -/

namespace RainbowBridge.NearBridge

open Lib Solidity

theorem valueAt_of_higher {value : LightClientBlock → Bytes32} {chain : List LightClientBlock}
    {top height : Uint64} (bounded : ∀ nearBlock ∈ chain, nearBlock.innerLite.height ≤ top)
    (higher : top < height) : valueAt value chain height = zeroBytes 32 := by
  have absent : chain.find? (fun nearBlock => nearBlock.innerLite.height = height) = none := by
    simp only [List.find?_eq_none, decide_eq_true_eq]
    rintro nearBlock member rfl
    have below := bounded nearBlock member
    simp only [BitVec.le_def, BitVec.lt_def] at below higher
    omega
  simp [valueAt, absent]

theorem exists_of_valueAt_ne_zero {value : LightClientBlock → Bytes32}
    {chain : List LightClientBlock} {height : Uint64}
    (stored : valueAt value chain height ≠ zeroBytes 32) :
    ∃ nearBlock ∈ chain, nearBlock.innerLite.height = height := by
  unfold valueAt at stored
  split at stored
  · exact absurd rfl stored
  · rename_i nearBlock found
    exact ⟨nearBlock, List.mem_of_find?_eq_some found, by simpa using List.find?_some found⟩

/-- The merge of the mapping with the untrusted slot is a lookup in the confirmed
chain. -/
theorem Tracks.readConfirmed {env : Env} {s : State} {history : History}
    (tracks : Tracks env.timestamp s history) {stored : Uint64 → Bytes32} {untrusted : Bytes32}
    {value : LightClientBlock → Bytes32}
    (empty : s.initialized = false → stored = fun _ => zeroBytes 32)
    (chained : ∀ chain, Committed s history.validators chain →
      ∀ height, stored height = valueAt value chain height)
    (last : ∀ chain nearBlock, Untrusted s history.validators chain nearBlock →
      untrusted = value nearBlock)
    (height : Uint64) :
    NearBridge.readConfirmed env s stored untrusted height = valueAt value history.confirmed height := by
  unfold NearBridge.readConfirmed
  cases tracks with
  | uninitialized fresh idle first low validators hashes roots none quiet =>
    rw [if_neg (by omega), empty fresh, none]
    rfl
  | settled ready idle committed quiet => rw [if_neg (by omega), chained _ committed]
  | pending ready inside committed nearBlock waiting pending =>
    rw [if_neg (by omega), chained _ committed]
  | confirmed ready used passed chain nearBlock added quiet committed pending =>
    rw [added, valueAt_cons, chained _ committed, last _ _ pending, pending.height]
    by_cases same : nearBlock.innerLite.height = height
    · subst same
      rw [if_pos ⟨valueAt_of_higher committed.bounded pending.higher, passed, used, rfl⟩, if_pos rfl]
    · rw [if_neg (fun merged => same merged.2.2.2.symm), if_neg same]

theorem Tracks.blockHashes {cfg : Config} {env : Env} {s : State} {history : History}
    (tracks : Tracks env.timestamp s history) (unpaused : Unpaused cfg env s pausedVerify)
    (height : Uint64) :
    NearBridge.blockHashes cfg env s height =
      .ok (valueAt LightClientBlock.hash history.confirmed height) := by
  rw [← tracks.readConfirmed (fun fresh => ?_) (fun _ committed => committed.hashes)
    (fun _ _ untrusted => untrusted.hash)]
  · simp only [NearBridge.blockHashes, bind_eq_ok, require_eq_ok, pure_eq_ok, exists_const,
      and_true]
    exact unpaused
  · cases tracks with
    | uninitialized _ _ _ _ _ hashes => exact hashes
    | settled ready => simp [fresh] at ready
    | pending ready => simp [fresh] at ready
    | confirmed ready => simp [fresh] at ready

theorem Tracks.blockMerkleRoots {cfg : Config} {env : Env} {s : State} {history : History}
    (tracks : Tracks env.timestamp s history) (unpaused : Unpaused cfg env s pausedVerify)
    (height : Uint64) :
    NearBridge.blockMerkleRoots cfg env s height =
      .ok (valueAt blockRoot history.confirmed height) := by
  rw [← tracks.readConfirmed (fun fresh => ?_) (fun _ committed => committed.roots)
    (fun _ _ untrusted => untrusted.merkleRoot)]
  · simp only [NearBridge.blockMerkleRoots, bind_eq_ok, require_eq_ok, pure_eq_ok, exists_const,
      and_true]
    exact unpaused
  · cases tracks with
    | uninitialized _ _ _ _ _ _ roots => exact roots
    | settled ready => simp [fresh] at ready
    | pending ready => simp [fresh] at ready
    | confirmed ready => simp [fresh] at ready

/-- Height of the latest confirmed block; zero before the init block. -/
def topHeight (chain : List LightClientBlock) : Uint64 :=
  match chain with
  | [] => 0
  | nearBlock :: _ => nearBlock.innerLite.height

theorem Committed.topHeight {s : State} {validators : List BlockProducer}
    {chain : List LightClientBlock} (committed : Committed s validators chain) :
    NearBridge.topHeight chain = s.curHeight := by
  have height := committed.height
  cases chain with
  | nil => simp at height
  | cons nearBlock earlier => simpa [NearBridge.topHeight] using height

theorem Tracks.currentHeight {env : Env} {s : State} {history : History}
    (tracks : Tracks env.timestamp s history) :
    (bridgeState env s).currentHeight = topHeight history.confirmed := by
  unfold bridgeState
  cases tracks with
  | uninitialized fresh idle first low validators hashes roots empty quiet =>
    simp [idle, low, empty, topHeight]
  | settled ready idle committed quiet => simp [idle, committed.topHeight]
  | pending ready inside committed nearBlock waiting untrusted =>
    simp [inside, committed.topHeight]
  | confirmed ready used passed chain nearBlock added quiet committed untrusted =>
    simp [Nat.not_lt.mpr passed, used, added, untrusted.height, topHeight]

theorem ChainOfTrust.higher {validators : List BlockProducer} {nearBlock : LightClientBlock}
    {chain : List LightClientBlock} (trust : ChainOfTrust validators (nearBlock :: chain)) :
    ∀ earlier ∈ chain, earlier.innerLite.height < nearBlock.innerLite.height := by
  induction chain generalizing nearBlock with
  | nil => simp
  | cons parent rest ih =>
    obtain ⟨tail, higher, _⟩ := trust
    rintro earlier (_ | ⟨_, member⟩)
    · exact higher
    · have below := ih tail earlier member
      simp only [BitVec.lt_def] at below higher ⊢
      omega

theorem ChainOfTrust.tail {validators : List BlockProducer} {nearBlock : LightClientBlock}
    {chain : List LightClientBlock} (trust : ChainOfTrust validators (nearBlock :: chain)) :
    ChainOfTrust validators chain := by
  cases chain with
  | nil => trivial
  | cons parent rest => exact trust.1

/-- Adding blocks on top does not change what the chain says below. -/
theorem valueAt_of_suffix {value : LightClientBlock → Bytes32} {validators : List BlockProducer}
    {chain added : List LightClientBlock} {height : Uint64}
    (trust : ChainOfTrust validators (added ++ chain))
    (stored : valueAt value chain height ≠ zeroBytes 32) :
    valueAt value (added ++ chain) height = valueAt value chain height := by
  induction added with
  | nil => rfl
  | cons nearBlock rest ih =>
    obtain ⟨known, member, found⟩ := exists_of_valueAt_ne_zero stored
    have below := trust.higher known (List.mem_append_right rest member)
    have other : nearBlock.innerLite.height ≠ height := by
      rintro rfl
      rw [found] at below
      simp at below
    rw [List.cons_append, valueAt_cons, if_neg other]
    exact ih trust.tail

theorem topHeight_le_of_suffix {validators : List BlockProducer}
    {chain added : List LightClientBlock} (trust : ChainOfTrust validators (added ++ chain)) :
    topHeight chain ≤ topHeight (added ++ chain) := by
  cases added with
  | nil => exact BitVec.le_refl _
  | cons nearBlock rest =>
    cases chain with
    | nil => simp [topHeight, BitVec.le_def]
    | cons parent earlier =>
      have below := trust.higher parent (by simp)
      simp only [topHeight, List.cons_append, BitVec.le_def, BitVec.lt_def] at below ⊢
      omega

theorem Tracks.trust {time : Nat} {s : State} {history : History} (tracks : Tracks time s history) :
    ChainOfTrust history.validators history.confirmed := by
  cases tracks with
  | uninitialized _ _ _ _ _ _ _ empty =>
    rw [empty]
    trivial
  | settled _ _ committed => exact committed.trust
  | pending _ _ committed => exact committed.trust
  | confirmed _ _ _ chain nearBlock added _ committed untrusted =>
    rw [added]
    exact chainOfTrust_cons committed untrusted

theorem History.settle_suffix (time : Nat) (history : History) :
    history.confirmed <:+ (history.settle time).confirmed := by
  unfold History.settle
  split
  · exact List.suffix_refl _
  · split
    · exact List.suffix_cons _ _
    · exact List.suffix_refl _

/-- A later moment, which has confirmed all that the earlier one had. -/
def Watched.Extends (point later : Watched) : Prop :=
  later.Tracked ∧ point.history.confirmed <:+ later.history.confirmed

/-- A non-zero answer at the first moment is the answer at the second, for every
caller whom the pause flag does not stop. -/
def Persists (cfg : Config) (read : Config → Env → State → Uint64 → Except Revert Bytes32)
    (first second : Moment) : Prop :=
  ∀ sender accepts height x, read cfg (first.env sender accepts) first.state height = .ok x →
    x ≠ zeroBytes 32 → ∀ sender' accepts',
      Unpaused cfg (second.env sender' accepts') second.state pausedVerify →
      read cfg (second.env sender' accepts') second.state height = .ok x

/-- A read that is a lookup in the confirmed chain, once it passes the pause
flag, persists. -/
theorem Watched.Extends.persists {cfg : Config} {point later : Watched}
    {read : Config → Env → State → Uint64 → Except Revert Bytes32}
    {value : LightClientBlock → Bytes32} (further : point.Extends later) (tracked : point.Tracked)
    (guarded : ∀ env s height x, read cfg env s height = .ok x → Unpaused cfg env s pausedVerify)
    (lookup : ∀ env s history, Tracks env.timestamp s history → Unpaused cfg env s pausedVerify →
      ∀ height, read cfg env s height = .ok (valueAt value history.confirmed height)) :
    Persists cfg read point.moment later.moment := by
  intro sender accepts height x seen nonzero sender' accepts' unpaused
  obtain ⟨tracks, added, grown⟩ := further
  have first := lookup _ _ point.history (tracked.tracks sender accepts) (guarded _ _ _ _ seen) height
  rw [seen, Except.ok.injEq] at first
  rw [lookup _ _ later.history (tracks.tracks sender' accepts') unpaused height, ← grown]
  have trust := Tracks.trust tracks
  rw [← grown] at trust
  rw [valueAt_of_suffix trust (first ▸ nonzero), ← first]

theorem blockHashes_unpaused {cfg : Config} {env : Env} {s : State} {height : Uint64} {x : Bytes32}
    (success : blockHashes cfg env s height = .ok x) : Unpaused cfg env s pausedVerify := by
  simp only [blockHashes, bind_eq_ok, require_eq_ok, pure_eq_ok] at success
  obtain ⟨_, unpaused, _⟩ := success
  exact unpaused

theorem blockMerkleRoots_unpaused {cfg : Config} {env : Env} {s : State} {height : Uint64}
    {x : Bytes32} (success : blockMerkleRoots cfg env s height = .ok x) :
    Unpaused cfg env s pausedVerify := by
  simp only [blockMerkleRoots, bind_eq_ok, require_eq_ok, pure_eq_ok] at success
  obtain ⟨_, unpaused, _⟩ := success
  exact unpaused

/-- The two reads at a height answer for one block, or for none. -/
def SameBlock (cfg : Config) (point : Watched) : Prop :=
  ∀ sender accepts height hash root,
    blockHashes cfg (point.moment.env sender accepts) point.moment.state height = .ok hash →
    blockMerkleRoots cfg (point.moment.env sender accepts) point.moment.state height = .ok root →
    (∃ nearBlock ∈ point.history.confirmed, nearBlock.innerLite.height = height ∧
      hash = nearBlock.hash ∧ root = nearBlock.innerLite.blockMerkleRoot) ∨
    (hash = zeroBytes 32 ∧ root = zeroBytes 32 ∧
      ∀ nearBlock ∈ point.history.confirmed, nearBlock.innerLite.height ≠ height)

theorem Watched.Tracked.sameBlock {cfg : Config} {point : Watched} (tracked : point.Tracked) :
    SameBlock cfg point := by
  intro sender accepts height hash root hashRead rootRead
  have now := tracked.tracks sender accepts
  have unpaused := blockHashes_unpaused hashRead
  rw [now.blockHashes unpaused, Except.ok.injEq] at hashRead
  rw [now.blockMerkleRoots unpaused, Except.ok.injEq] at rootRead
  unfold valueAt at hashRead rootRead
  cases found : point.history.confirmed.find? (fun nearBlock => nearBlock.innerLite.height = height) with
  | none =>
    simp only [found] at hashRead rootRead
    refine .inr ⟨hashRead.symm, rootRead.symm, fun nearBlock member => ?_⟩
    simpa using List.find?_eq_none.mp found nearBlock member
  | some nearBlock =>
    simp only [found] at hashRead rootRead
    exact .inl ⟨nearBlock, List.mem_of_find?_eq_some found, by simpa using List.find?_some found,
      hashRead.symm, rootRead.symm⟩

variable [Hashing]

/-- A successful call keeps every confirmed block. -/
theorem Tracks.record_suffix {cfg : Config} {env : Env} {call : Call} {s s' : State}
    {history : History} (tracks : Tracks env.timestamp s history)
    (success : NearBridge.exec cfg env call s = .ok s') :
    history.confirmed <:+ (history.record env s' call).confirmed := by
  cases call with
  | addLightClientBlock data =>
    simp only [History.record]
    split
    · exact (history.submit _).settle_suffix _
    · exact List.suffix_refl _
  | initWithValidators data =>
    simp only [History.record]
    split <;> exact List.suffix_refl _
  | initWithBlock data =>
    obtain ⟨_, ⟨fresh, _⟩, _⟩ := initWithBlock_eq_ok.mp success
    cases tracks with
    | uninitialized _ _ _ _ _ _ _ empty =>
      rw [empty]
      exact List.nil_suffix
    | settled ready => simp [fresh] at ready
    | pending ready => simp [fresh] at ready
    | confirmed ready => simp [fresh] at ready
  | _ => exact List.suffix_refl _

theorem Watched.Tracked.extends (cfg : Config) {point : Watched} (tracked : point.Tracked)
    (labels : List Label) : point.Extends ((watched cfg).run point labels) := by
  refine watched_invariant ?_ ?_ ?_ ⟨tracked, List.suffix_refl _⟩ labels
  · rintro moment history sender accepts call state ⟨tracks, extended⟩ success
    have now := tracks.tracks sender accepts
    exact ⟨now.exec success, extended.trans (now.record_suffix success)⟩
  · rintro moment history seconds ⟨tracks, extended⟩
    exact ⟨Tracks.wait tracks (Nat.le_add_right _ _), extended.trans (history.settle_suffix _)⟩
  · rintro moment history value ⟨tracks, extended⟩
    exact ⟨Tracks.frame tracks _ _ _ _ _, extended⟩

/-- In every run the confirmed blocks form a chain of trust from the init block
and the initial validators. -/
theorem confirmed_chainOfTrust (cfg : Config) (time pausedFlags : Nat) (labels : List Label) :
    let history := ((watched cfg).run (.deployed time pausedFlags) labels).history
    ChainOfTrust history.validators history.confirmed :=
  Tracks.trust ((Watched.Tracked.deployed time pausedFlags).run cfg labels)

/-- Once confirmed, a block is what the views return for its height in the rest
of every run; the current height never decreases and is the latest confirmed
block's. -/
theorem confirmed_immutable (cfg : Config) (time pausedFlags : Nat) (labels more : List Label) :
    let point := (watched cfg).run (.deployed time pausedFlags) labels
    let later := (watched cfg).run point more
    Persists cfg blockHashes point.moment later.moment ∧
    Persists cfg blockMerkleRoots point.moment later.moment ∧
    SameBlock cfg point ∧
    (∀ sender accepts sender' accepts',
      (bridgeState (point.moment.env sender accepts) point.moment.state).currentHeight ≤
        (bridgeState (later.moment.env sender' accepts') later.moment.state).currentHeight) ∧
    (∀ sender accepts, ∀ latest ∈ point.history.confirmed.head?,
      let env := point.moment.env sender accepts
      Unpaused cfg env point.moment.state pausedVerify →
      blockHashes cfg env point.moment.state (bridgeState env point.moment.state).currentHeight =
        .ok latest.hash) := by
  intro point later
  have tracked : point.Tracked := (Watched.Tracked.deployed time pausedFlags).run cfg labels
  have further : point.Extends later := tracked.extends cfg more
  refine ⟨?_, ?_, tracked.sameBlock, ?_, ?_⟩
  · exact further.persists tracked (fun _ _ _ _ => blockHashes_unpaused)
      (fun _ _ _ tracks => tracks.blockHashes)
  · exact further.persists tracked (fun _ _ _ _ => blockMerkleRoots_unpaused)
      (fun _ _ _ tracks => tracks.blockMerkleRoots)
  · intro sender accepts sender' accepts'
    obtain ⟨tracks, added, grown⟩ := further
    have trust := Tracks.trust tracks
    rw [(tracked.tracks sender accepts).currentHeight,
      (tracks.tracks sender' accepts').currentHeight, ← grown]
    exact topHeight_le_of_suffix (grown ▸ trust)
  · intro sender accepts latest head env unpaused
    have now := tracked.tracks sender accepts
    rw [now.blockHashes unpaused, now.currentHeight]
    cases chain : point.history.confirmed with
    | nil => simp [chain] at head
    | cons top earlier =>
      obtain rfl : top = latest := by simpa [chain] using head
      simp [valueAt, topHeight]

end RainbowBridge.NearBridge
