import RainbowBridge.EthClient.Heaviest

/-! Runs of the client without a trusted signer: any public calls after `init`, with
all headers that were ever accepted. -/

namespace RainbowBridge.EthClient

open Lib EthTypes Near

/-- The client with all headers that it has ever accepted. -/
structure Archive where
  first : BlockHeader
  accepted : List BlockHeader
  client : Client

/-- A call of a method that can change the client. -/
inductive Call where
  | addBlockHeader (submission : Submission)
  | setPaused (env : Env) (paused : Mask)
  | updateTrustedSigner (env : Env) (trustedSigner : Option AccountId)

/-- The call sets no trusted signer. -/
def Call.Unsigned : Call → Prop
  | .updateTrustedSigner _ trustedSigner => trustedSigner = none
  | _ => True

/-- The headers given to the client, the first one included. -/
def submittedBy (config : Config) (calls : List Call) : Set Bytes :=
  {config.firstHeader} ∪ { raw | ∃ submission, .addBlockHeader submission ∈ calls ∧
    raw = submission.blockHeader }

variable [Hashing]

/-- There is never a trusted signer, some headers are kept, and no two of the
submitted headers have one hash. -/
structure Permissionless (config : Config) (calls : List Call) : Prop where
  anyone : config.trustedSigner = none
  unsigned : ∀ call ∈ calls, call.Unsigned
  positive : 0 < config.finalizedGcThreshold
  free : CollisionFree keccak256 (submittedBy config calls)

variable (crate : RlpCrate) (eip1559 : Bool) (ethash : EthashCrate)

def openArchive (config : Config) : Option Archive := do
  let client ← init crate eip1559 none config
  let first ← BlockHeader.decode crate eip1559 config.firstHeader
  return ⟨first, [first], client⟩

/-- A call that panics changes nothing. -/
def archiveMachine : Machine Archive Call where
  next := fun archive call =>
    match call with
    | .addBlockHeader call =>
      match archive.client.addBlockHeader crate eip1559 ethash call.env call.blockHeader
          call.dagNodes with
      | none => archive
      | some client => { archive with
          accepted := archive.accepted ++ (BlockHeader.decode crate eip1559 call.blockHeader).toList
          client }
    | .setPaused env paused => { archive with
        client := (archive.client.setPaused env paused).getD archive.client }
    | .updateTrustedSigner env trustedSigner => { archive with
        client := (archive.client.updateTrustedSigner env trustedSigner).getD archive.client }

/-- A state of a run without trusted signer. -/
structure Sound (submitted : Set Bytes) (archive : Archive) (best : BlockHeader) (low : Nat) : Prop where
  kept : Kept archive.first archive.accepted archive.client best low
  anyone : archive.client.trustedSigner = none
  origin : ∀ header ∈ archive.accepted, ∃ raw ∈ submitted,
    BlockHeader.decode crate eip1559 raw = some header

variable {crate eip1559 ethash}

theorem sound_open {config : Config} {archive : Archive}
    (opened : openArchive crate eip1559 config = some archive) (anyone : config.trustedSigner = none)
    (positive : 0 < config.finalizedGcThreshold) {submitted : Set Bytes}
    (member : config.firstHeader ∈ submitted) :
    Sound crate eip1559 submitted archive archive.first archive.first.number.toNat := by
  simp only [openArchive, init, Option.bind_eq_bind, Option.bind_eq_some_iff, Option.pure_def,
    Option.some.injEq] at opened
  obtain ⟨client, ⟨-, -, header, decoded, hash, named, rfl⟩, first, decoded', rfl⟩ := opened
  obtain rfl := Option.some.inj (decoded.symm.trans decoded')
  refine ⟨⟨Held.start named, positive, by simp, named, Nat.le_refl _, ?_⟩, anyone, ?_⟩
  · intro other inside total bestTotal sum bestSum
    rw [List.mem_singleton.mp inside] at sum
    exact Nat.le_of_eq ((Held.start named).forest.total_unique sum bestSum)
  · intro other inside
    rw [List.mem_singleton.mp inside]
    exact ⟨config.firstHeader, member, decoded⟩

/-- What a call can do to the archive: pause methods, or add a header. -/
inductive Step (crate : RlpCrate) (eip1559 : Bool) (submitted : Set Bytes) (archive : Archive) (low : Nat) :
    Archive → Prop
  | paused (mask : Mask) : Step crate eip1559 submitted archive low
      { archive with client := { archive.client with paused := mask } }
  | added {raw : Bytes} {header prev : BlockHeader} {hash : H256} {bestInfo parentInfo : HeaderInfo}
      (given : raw ∈ submitted) (decoded : BlockHeader.decode crate eip1559 raw = some header)
      (attaches : Attaches archive.accepted low header prev)
      (accepts : Accepts archive.client header hash bestInfo parentInfo) :
      Step crate eip1559 submitted archive low ⟨archive.first, archive.accepted ++ [header],
        archive.client.recorded header hash bestInfo parentInfo⟩

namespace Sound

variable {submitted : Set Bytes} {archive : Archive} {best : BlockHeader} {low : Nat}

/-- A header that is not known has never been accepted before. -/
theorem attaches (sound : Sound crate eip1559 submitted archive best low)
    (free : CollisionFree keccak256 submitted) {raw : Bytes} (member : raw ∈ submitted)
    {header prev : BlockHeader} (decoded : BlockHeader.decode crate eip1559 raw = some header)
    (parent : archive.client.headers header.parentHash = some prev)
    (number : header.number.toNat = prev.number.toNat + 1) {hash : H256} (named : header.hash = some hash)
    (unknown : hash ∉ archive.client.knownHashes header.number.toNat) :
    Attaches archive.accepted low header prev := by
  obtain ⟨inside, parentHash, lower⟩ := sound.kept.held.of_header parent
  refine ⟨by rw [named]; rfl, inside, lower, parentHash, number, fun other known same => ?_⟩
  obtain ⟨raw', member', decoded'⟩ := sound.origin other known
  rw [hash_of_decode decoded, hash_of_decode decoded'] at same
  obtain rfl := free member' member (Option.some.inj same)
  obtain rfl := Option.some.inj (decoded.symm.trans decoded')
  apply unknown
  rw [← toNode_hash named]
  exact (sound.kept.held.stored.known _ _).mpr
    ⟨by omega, toNode header, List.mem_map_of_mem known, rfl, rfl⟩

theorem step (sound : Sound crate eip1559 submitted archive best low)
    (free : CollisionFree keccak256 submitted) {call : Call} (unsigned : call.Unsigned)
    (member : ∀ submission, call = .addBlockHeader submission → submission.blockHeader ∈ submitted) :
    Step crate eip1559 submitted archive low ((archiveMachine crate eip1559 ethash).next archive call) := by
  have unchanged : Step crate eip1559 submitted archive low archive := .paused archive.client.paused
  cases call with
  | addBlockHeader call =>
    cases success : archive.client.addBlockHeader crate eip1559 ethash call.env call.blockHeader
        call.dagNodes with
    | none => simpa only [archiveMachine, success] using unchanged
    | some after =>
      obtain ⟨header, prev, decoded, parent, number, recorded⟩ := parent_of_success sound.anyone success
      obtain ⟨hash, bestInfo, parentInfo, accepts, rfl⟩ := recordHeader_eq_some.mp recorded
      have attaches := sound.attaches free (member call rfl) decoded parent number accepts.named
        accepts.unknown
      simp only [archiveMachine, success, decoded, Option.toList_some]
      exact .added (member call rfl) decoded attaches accepts
  | setPaused env paused =>
    simp only [archiveMachine]
    cases changed : archive.client.setPaused env paused with
    | none => exact unchanged
    | some after =>
      simp only [Client.setPaused, Option.bind_eq_bind, Option.bind_eq_some_iff, Option.pure_def,
        Option.some.injEq] at changed
      obtain ⟨-, -, rfl⟩ := changed
      exact .paused paused
  | updateTrustedSigner env trustedSigner =>
    simp only [archiveMachine]
    cases changed : archive.client.updateTrustedSigner env trustedSigner with
    | none => exact unchanged
    | some after =>
      simp only [Client.updateTrustedSigner, Option.bind_eq_bind, Option.bind_eq_some_iff,
        Option.pure_def, Option.some.injEq] at changed
      obtain ⟨-, -, rfl⟩ := changed
      rw [show trustedSigner = archive.client.trustedSigner from unsigned.trans sound.anyone.symm]
      exact unchanged

/-- An accepted header is appended to the archive. -/
theorem extend (sound : Sound crate eip1559 submitted archive best low) {raw : Bytes}
    (member : raw ∈ submitted) {header : BlockHeader}
    (decoded : BlockHeader.decode crate eip1559 raw = some header) {client : Client}
    {best' : BlockHeader} {low' : Nat}
    (kept : Kept archive.first (archive.accepted ++ [header]) client best' low')
    (anyone : client.trustedSigner = none) :
    Sound crate eip1559 submitted ⟨archive.first, archive.accepted ++ [header], client⟩ best' low' := by
  refine ⟨kept, anyone, fun other inside => ?_⟩
  rcases List.mem_append.mp inside with old | new
  · exact sound.origin other old
  · rw [List.mem_singleton.mp new]
    exact ⟨raw, member, decoded⟩

section Record

variable (sound : Sound crate eip1559 submitted archive best low) {raw : Bytes}
  (given : raw ∈ submitted) {header prev : BlockHeader}
  (decoded : BlockHeader.decode crate eip1559 raw = some header)
  (attaches : Attaches archive.accepted low header prev) {hash : H256} {bestInfo parentInfo : HeaderInfo}
  (accepts : Accepts archive.client header hash bestInfo parentInfo)

include sound given decoded attaches accepts

theorem insertHeader (worse : archive.client.wouldBeBest header = false) :
    Sound crate eip1559 submitted ⟨archive.first, archive.accepted ++ [header],
      archive.client.recorded header hash bestInfo parentInfo⟩ best low :=
  sound.extend given decoded (sound.kept.insertHeader attaches accepts worse)
    ((recorded_settings archive.client header hash bestInfo parentInfo).1.trans sound.anyone)

theorem updateCanonical (better : archive.client.wouldBeBest header = true) :
    Sound crate eip1559 submitted ⟨archive.first, archive.accepted ++ [header],
      archive.client.recorded header hash bestInfo parentInfo⟩ header
      (max low (header.number.toNat + 1 - archive.client.finalizedGcThreshold)) :=
  sound.extend given decoded (sound.kept.updateCanonical attaches accepts better)
    ((recorded_settings archive.client header hash bestInfo parentInfo).1.trans sound.anyone)

end Record

theorem pause (sound : Sound crate eip1559 submitted archive best low) (mask : Mask) :
    Sound crate eip1559 submitted { archive with client := { archive.client with paused := mask } }
      best low :=
  ⟨⟨sound.kept.held, sound.kept.positive, sound.kept.member, sound.kept.hash, sound.kept.low,
    sound.kept.heaviest⟩, sound.anyone, sound.origin⟩

/-- Every call leads from a sound archive to a sound one. -/
theorem next (sound : Sound crate eip1559 submitted archive best low) {after : Archive}
    (step : Step crate eip1559 submitted archive low after) :
    ∃ best low, Sound crate eip1559 submitted after best low := by
  cases step with
  | paused mask => exact ⟨best, low, sound.pause mask⟩
  | @added _ header _ _ _ _ given decoded attaches accepts =>
    cases better : archive.client.wouldBeBest header with
    | true => exact ⟨_, _, sound.updateCanonical given decoded attaches accepts better⟩
    | false => exact ⟨_, _, sound.insertHeader given decoded attaches accepts better⟩

end Sound

omit [Hashing] in
theorem mem_submittedBy {config : Config} {calls : List Call} {submission : Submission}
    (member : .addBlockHeader submission ∈ calls) : submission.blockHeader ∈ submittedBy config calls :=
  .inr ⟨submission, member, rfl⟩

section Run

variable {config : Config} {archive : Archive} {calls more : List Call}
  (opened : openArchive crate eip1559 config = some archive)
  (permissionless : Permissionless config (calls ++ more))

include opened permissionless

/-- What a sound archive has at first and every permitted step preserves holds in
every state that a permitted run reaches. -/
theorem run_sound_of_steps {condition : Archive → Call → Prop}
    (permitted : (archiveMachine crate eip1559 ethash).StepsMeet condition archive calls)
    (holds : Archive → BlockHeader → Nat → Prop)
    (initial : holds archive archive.first archive.first.number.toNat)
    (preserved : ∀ {state best low call},
      Sound crate eip1559 (submittedBy config (calls ++ more)) state best low → holds state best low →
      condition state call → Step crate eip1559 (submittedBy config (calls ++ more)) state low
        ((archiveMachine crate eip1559 ethash).next state call) →
      ∃ best low, Sound crate eip1559 (submittedBy config (calls ++ more))
        ((archiveMachine crate eip1559 ethash).next state call) best low ∧
        holds ((archiveMachine crate eip1559 ethash).next state call) best low) :
    ∃ best low, Sound crate eip1559 (submittedBy config (calls ++ more))
      ((archiveMachine crate eip1559 ethash).run archive calls) best low ∧
      holds ((archiveMachine crate eip1559 ethash).run archive calls) best low := by
  have kept : ∀ state call,
      (∃ best low, Sound crate eip1559 (submittedBy config (calls ++ more)) state best low ∧
        holds state best low) → condition state call ∧ call ∈ calls →
      ∃ best low, Sound crate eip1559 (submittedBy config (calls ++ more))
        ((archiveMachine crate eip1559 ethash).next state call) best low ∧
        holds ((archiveMachine crate eip1559 ethash).next state call) best low := by
    intro state call ⟨best, low, sound, here⟩ ⟨met, member⟩
    have inside : call ∈ calls ++ more := List.mem_append_left _ member
    apply preserved sound here met
    exact sound.step permissionless.free (permissionless.unsigned call inside)
      fun submission same => mem_submittedBy (same ▸ inside)
  exact Machine.run_invariant_of_steps _ kept
    ⟨_, _, sound_open opened permissionless.anyone permissionless.positive (.inl rfl), initial⟩ calls
    (permitted.mem (List.Subset.refl calls))

theorem run_sound (holds : Archive → BlockHeader → Nat → Prop)
    (initial : holds archive archive.first archive.first.number.toNat)
    (preserved : ∀ {state best low after},
      Sound crate eip1559 (submittedBy config (calls ++ more)) state best low → holds state best low →
      Step crate eip1559 (submittedBy config (calls ++ more)) state low after →
      ∃ best low, Sound crate eip1559 (submittedBy config (calls ++ more)) after best low ∧
        holds after best low) :
    ∃ best low, Sound crate eip1559 (submittedBy config (calls ++ more))
      ((archiveMachine crate eip1559 ethash).run archive calls) best low ∧
      holds ((archiveMachine crate eip1559 ethash).run archive calls) best low :=
  run_sound_of_steps opened permissionless (Machine.stepsMeet_true _ archive calls) holds initial
    fun sound here _ step => preserved sound here step

/-- Every state that a run reaches is sound. -/
theorem sound_run :
    ∃ best low, Sound crate eip1559 (submittedBy config (calls ++ more))
      ((archiveMachine crate eip1559 ethash).run archive calls) best low := by
  obtain ⟨best, low, sound, -⟩ := run_sound opened permissionless (fun _ _ _ => True) trivial
    fun sound _ step => by simpa using sound.next step
  exact ⟨best, low, sound⟩

end Run

/-- A header that would be too heavy is refused. -/
theorem Sound.refused {submitted : Set Bytes} {archive : Archive} {best older header : BlockHeader}
    {low total : Nat} (sound : Sound crate eip1559 submitted archive best low) {call : Submission}
    (decoded : BlockHeader.decode crate eip1559 call.blockHeader = some header)
    (parent : older ∈ archive.accepted) (hash : older.hash = some header.parentHash)
    (sum : TotalDifficulty archive.first archive.accepted older total)
    (heavy : 2 ^ 256 ≤ total + header.difficulty.toNat) :
    (archiveMachine crate eip1559 ethash).next archive (.addBlockHeader call) = archive := by
  cases success : archive.client.addBlockHeader crate eip1559 ethash call.env call.blockHeader
      call.dagNodes with
  | none => simp only [archiveMachine, success]
  | some after =>
    obtain ⟨header', prev, decoded', -, -, recorded⟩ := parent_of_success sound.anyone success
    obtain rfl := Option.some.inj (decoded.symm.trans decoded')
    obtain ⟨_, bestInfo, parentInfo, accepts, -⟩ := recordHeader_eq_some.mp recorded
    have found := accepts.parent
    rw [← toNode_hash hash] at found
    have same := sound.kept.held.forest.total_unique sum
      (sound.kept.held.totals older parent parentInfo found)
    have fits := accepts.fits
    omega

/-- A step never makes the best header lighter. -/
theorem Sound.step_best {submitted : Set Bytes} {archive after : Archive} {best : BlockHeader} {low : Nat}
    (sound : Sound crate eip1559 submitted archive best low)
    (step : Step crate eip1559 submitted archive low after) {info info' : HeaderInfo}
    (before : archive.client.infos archive.client.bestHeaderHash = some info)
    (now : after.client.infos after.client.bestHeaderHash = some info') :
    info.totalDifficulty ≤ info'.totalDifficulty ∧
      (after.client.bestHeaderHash ≠ archive.client.bestHeaderHash →
        ∃ header ∈ after.accepted, header.hash = some after.client.bestHeaderHash ∧
          (info.totalDifficulty < info'.totalDifficulty ∨
            info'.totalDifficulty = info.totalDifficulty ∧ header.difficulty.toNat % 2 = 0)) := by
  cases step with
  | paused mask =>
    obtain rfl := Option.some.inj (before.symm.trans now)
    exact ⟨Nat.le_refl _, fun different => absurd rfl different⟩
  | added given decoded attaches accepts =>
    obtain rfl := Option.some.inj (before.symm.trans accepts.best)
    obtain ⟨larger, changed⟩ := sound.kept.recorded_best attaches accepts now
    exact ⟨larger, fun different => ⟨_, List.mem_append_right _ List.mem_cons_self, changed different⟩⟩

/-- In every reached state the best header has its total difficulty in its info, and
no header ever accepted is heavier. The next call never makes it less, replaces the
best header only by a heavier one or by one as heavy and even, and is refused if the
total would not fit. -/
theorem heaviest_chain (crate : RlpCrate) (eip1559 : Bool) (ethash : EthashCrate) (config : Config)
    (archive : Archive) (calls : List Call) (call : Call)
    (opened : openArchive crate eip1559 config = some archive)
    (permissionless : Permissionless config (calls ++ [call])) :
    let reached := (archiveMachine crate eip1559 ethash).run archive calls
    let next := (archiveMachine crate eip1559 ethash).next reached call
    (∀ header ∈ reached.accepted, ∃! total,
      TotalDifficulty reached.first reached.accepted header total) ∧
    (∃ best ∈ reached.accepted, best.hash = some reached.client.bestHeaderHash ∧
      ∃ info, reached.client.infos reached.client.bestHeaderHash = some info ∧
        TotalDifficulty reached.first reached.accepted best info.totalDifficulty ∧
        ∀ header ∈ reached.accepted, ∀ total,
          TotalDifficulty reached.first reached.accepted header total →
            total ≤ info.totalDifficulty) ∧
    (∀ info info', reached.client.infos reached.client.bestHeaderHash = some info →
      next.client.infos next.client.bestHeaderHash = some info' →
      info.totalDifficulty ≤ info'.totalDifficulty ∧
      (next.client.bestHeaderHash ≠ reached.client.bestHeaderHash →
        ∃ header ∈ next.accepted, header.hash = some next.client.bestHeaderHash ∧
          (info.totalDifficulty < info'.totalDifficulty ∨
            info'.totalDifficulty = info.totalDifficulty ∧ header.difficulty.toNat % 2 = 0))) ∧
    ∀ submission header older total, call = .addBlockHeader submission →
      BlockHeader.decode crate eip1559 submission.blockHeader = some header →
      older ∈ reached.accepted → older.hash = some header.parentHash →
      TotalDifficulty reached.first reached.accepted older total →
      2 ^ 256 ≤ total + header.difficulty.toNat → next = reached := by
  intro reached next
  obtain ⟨best, low, sound⟩ : ∃ best low, Sound crate eip1559 _ reached best low :=
    sound_run opened permissionless
  have inside : call ∈ calls ++ [call] := by simp
  have step : Step crate eip1559 _ reached low next :=
    sound.step permissionless.free (permissionless.unsigned call inside) fun submission same =>
      mem_submittedBy (same ▸ inside)
  have forest := sound.kept.held.forest
  obtain ⟨info, found, -, total⟩ := sound.kept.info_best
  refine ⟨fun header member => ?_, ⟨best, sound.kept.member, sound.kept.hash, info, found, total,
    fun header member other sum => sound.kept.heaviest header member other _ sum total⟩,
    fun info info' before now => ?_, ?_⟩
  · obtain ⟨total, sum⟩ := forest.exists_total member
    exact ⟨total, sum, fun other sum' => forest.total_unique sum' sum⟩
  · exact sound.step_best step before now
  · rintro submission header older total rfl decoded parent hash sum heavy
    exact sound.refused decoded parent hash sum heavy

section Sample

omit [Hashing]

def submit (block : Node × Bytes) : Call := .addBlockHeader ⟨⟨"client", "relayer", "relayer"⟩, block.2, []⟩

/-- The left branch leads, until the right one has three headers. -/
def forkedCalls : List Call := [leftBlock 1, rightBlock 1, leftBlock 2, rightBlock 2, rightBlock 3].map submit

theorem permissionless_blocks [Hashing] {blocks : List (Node × Bytes)}
    (free : CollisionFree keccak256 { raw | ∃ block ∈ firstBlock :: blocks, block.2 = raw }) :
    Permissionless sampleConfig (blocks.map submit) := by
  refine ⟨rfl, fun call member => ?_, by decide, free.mono ?_⟩
  · obtain ⟨block, -, rfl⟩ := List.mem_map.mp member
    trivial
  · rintro raw (first | ⟨submission, member, same⟩)
    · exact ⟨firstBlock, List.mem_cons_self, (Set.mem_singleton_iff.mp first).symm⟩
    · obtain ⟨block, inside, call⟩ := List.mem_map.mp member
      rw [← Call.addBlockHeader.inj call] at same
      exact ⟨block, List.mem_cons_of_mem _ inside, same.symm⟩

/-- Calls that submit headers of the two branches. -/
theorem permissionless_sample {blocks : List (Node × Bytes)} (among : blocks ⊆ sampleBlocks) :
    letI := Hashing.platform
    Permissionless sampleConfig (blocks.map submit) := by
  let := Hashing.platform
  refine permissionless_blocks (sampleBlocks_free.mono ?_)
  rintro raw ⟨block, member, same⟩
  exact ⟨block, List.cons_subset_cons _ among member, same⟩

theorem heaviest_chain_sample :
    letI := Hashing.platform
    ∃ archive, openArchive .reference true sampleConfig = some archive ∧
      let reached := (archiveMachine .reference true sampleEthash).run archive (forkedCalls.take 4)
      let next := (archiveMachine .reference true sampleEthash).next reached (submit (rightBlock 3))
      reached.client.bestHeaderHash = leftHash 2 ∧ next.client.bestHeaderHash = rightHash 3 ∧
      (∃ best ∈ reached.accepted, best.hash = some (leftHash 2) ∧
        TotalDifficulty reached.first reached.accepted best 2 ∧
        ∀ header ∈ reached.accepted, ∀ total,
          TotalDifficulty reached.first reached.accepted header total → total ≤ 2) ∧
      ∃ header ∈ next.accepted, header.hash = some (rightHash 3) := by
  have permissionless := permissionless_sample
    (show [leftBlock 1, rightBlock 1, leftBlock 2, rightBlock 2, rightBlock 3] ⊆ sampleBlocks by
      simp [sampleBlocks])
  rw [← sampleDigests_right] at permissionless ⊢
  let := Hashing.lookup sampleDigests
  have computed : (openArchive .reference true sampleConfig).map (fun archive =>
      let reached := (archiveMachine .reference true sampleEthash).run archive (forkedCalls.take 4)
      let next := (archiveMachine .reference true sampleEthash).next reached (submit (rightBlock 3))
      (reached.client.bestHeaderHash, next.client.bestHeaderHash,
        (reached.client.infos reached.client.bestHeaderHash).map HeaderInfo.totalDifficulty,
        (next.client.infos next.client.bestHeaderHash).isSome)) =
      some (leftHash 2, rightHash 3, some 2, true) := by
    decide +kernel
  obtain ⟨archive, opened, results⟩ := Option.map_eq_some_iff.mp computed
  simp only [Prod.mk.injEq] at results
  obtain ⟨before, after, total, kept⟩ := results
  obtain ⟨-, ⟨best, member, hash, info, found, sum, heaviest⟩, grows, -⟩ := heaviest_chain .reference true
    sampleEthash sampleConfig archive (forkedCalls.take 4) (submit (rightBlock 3)) opened permissionless
  obtain ⟨info', found'⟩ := Option.isSome_iff_exists.mp kept
  rw [found, Option.map_some, Option.some.injEq] at total
  rw [total] at sum heaviest
  rw [before] at hash
  obtain ⟨header, member', hash', -⟩ := (grows info info' found found').2 (by
    rw [before, after]
    decide)
  rw [after] at hash'
  exact ⟨archive, opened, before, after, ⟨best, member, hash, sum, heaviest⟩, header, member', hash'⟩

end Sample

/-- In every reached state the best header is stored, so that a valid header on top of
it is recorded and becomes the best one. -/
theorem best_extendable (crate : RlpCrate) (eip1559 : Bool) (ethash : EthashCrate) (config : Config)
    (archive : Archive) (calls : List Call)
    (opened : openArchive crate eip1559 config = some archive)
    (permissionless : Permissionless config calls) :
    let client := ((archiveMachine crate eip1559 ethash).run archive calls).client
    ∃ best info, client.headers client.bestHeaderHash = some best ∧
      client.infos client.bestHeaderHash = some info ∧
      ∀ raw header hash dagNodes, BlockHeader.decode crate eip1559 raw = some header →
        header.hash = some hash → client.verifyHeader ethash header best dagNodes = some true →
        hash ∉ client.knownHashes header.number.toNat →
        header.parentHash = client.bestHeaderHash → 0 < header.difficulty.toNat →
        info.totalDifficulty + header.difficulty.toNat < 2 ^ 256 →
        header.number.toNat + client.finalizedGcThreshold < 2 ^ 64 →
        ∃ after, client.recordHeader header = some after ∧ after.bestHeaderHash = hash := by
  intro client
  rw [← List.append_nil calls] at permissionless
  obtain ⟨best, low, sound⟩ := sound_run opened permissionless
  obtain ⟨info, found, number, -⟩ := sound.kept.info_best
  have header := sound.kept.held.headers best sound.kept.member sound.kept.low
  rw [toNode_hash sound.kept.hash] at header
  refine ⟨best, info, header, found, ?_⟩
  intro raw header hash dagNodes _ named verified unknown parent difficult fits small
  have height := isNext_of_verify verified
  have parentInfo := found
  rw [← parent] at parentInfo
  have better : client.wouldBeBest header = true := by
    rw [wouldBeBest_eq found parentInfo, Kept.becomesBest_iff]
    exact .inl (Nat.lt_add_of_pos_right difficult)
  have accepts : Accepts client header hash info info :=
    ⟨found, named, small, by omega, parentInfo, unknown, fits, fun _ => by omega⟩
  refine ⟨_, recordHeader_eq_some.mpr ⟨hash, info, info, accepts, rfl⟩, ?_⟩
  rw [Client.recorded, if_pos better]
  rfl

section Sample

omit [Hashing]

set_option synthInstance.maxSize 1024 in
/-- The right branch has just become the best one, and the first headers are gone. -/
theorem best_extendable_sample :
    letI := Hashing.platform
    ∃ archive header after, openArchive .reference true sampleConfig = some archive ∧
      let client := ((archiveMachine .reference true sampleEthash).run archive forkedCalls).client
      client.bestHeaderHash = rightHash 3 ∧ client.infos (rightHash 1) = none ∧
      BlockHeader.decode .reference true (rightBlock 4).2 = some header ∧
      client.recordHeader header = some after ∧ after.bestHeaderHash = rightHash 4 := by
  have permissionless := permissionless_sample
    (show [leftBlock 1, rightBlock 1, leftBlock 2, rightBlock 2, rightBlock 3] ⊆ sampleBlocks by
      simp [sampleBlocks])
  rw [← sampleDigests_right] at permissionless ⊢
  let := Hashing.lookup sampleDigests
  have computed : (openArchive .reference true sampleConfig).map (fun archive =>
      let client := ((archiveMachine .reference true sampleEthash).run archive forkedCalls).client
      (BlockHeader.decode .reference true (rightBlock 4).2).map fun header =>
        (client.bestHeaderHash, header.hash, (client.headers client.bestHeaderHash).map fun best =>
            client.verifyHeader sampleEthash header best [],
          (client.infos client.bestHeaderHash).map HeaderInfo.totalDifficulty)) =
      some (some (rightHash 3, some (rightHash 4), some (some true), some 3)) := by
    decide +kernel
  have stored : (openArchive .reference true sampleConfig).map (fun archive =>
      let client := ((archiveMachine .reference true sampleEthash).run archive forkedCalls).client
      (BlockHeader.decode .reference true (rightBlock 4).2).map fun header =>
        ((client.infos (rightHash 1)).isNone, client.knownHashes header.number.toNat,
          decide (header.parentHash = client.bestHeaderHash ∧ 0 < header.difficulty.toNat ∧
            3 + header.difficulty.toNat < 2 ^ 256 ∧
            header.number.toNat + client.finalizedGcThreshold < 2 ^ 64))) =
      some (some (true, [], true)) := by
    decide +kernel
  obtain ⟨archive, opened, results⟩ := Option.map_eq_some_iff.mp computed
  obtain ⟨header, decoded, results⟩ := Option.map_eq_some_iff.mp results
  simp only [opened, decoded, Option.map_some, Option.some.injEq, Prod.mk.injEq, decide_eq_true_eq,
    Option.isNone_iff_eq_none] at results stored
  obtain ⟨top, hash, verified, total⟩ := results
  obtain ⟨gone, known, parent, difficult, fits, small⟩ := stored
  obtain ⟨best, info, held, found, extends'⟩ := best_extendable .reference true sampleEthash sampleConfig
    archive forkedCalls opened permissionless
  rw [held, Option.map_some, Option.some.injEq] at verified
  rw [found, Option.map_some, Option.some.injEq] at total
  obtain ⟨after, recorded, replaced⟩ := extends' _ header (rightHash 4) [] decoded hash verified
    (by rw [known]; exact List.not_mem_nil) parent difficult (by rwa [total]) small
  exact ⟨archive, header, after, opened, top, gone, decoded, recorded, replaced⟩

end Sample

end RainbowBridge.EthClient
