import RainbowBridge.EthClient.Representation
import Mathlib.Data.Set.Card
import Mathlib.Order.Interval.Finset.Nat

/-! How many numbers have stored headers. The collection runs only when the best header
changes, so that a lighter branch can grow above it and make the client store more
numbers than `finalized_gc_threshold`. -/

namespace RainbowBridge.EthClient

open Lib EthTypes Near

/-- The numbers with stored headers. -/
def Client.heights (client : Client) : Set Nat := { n | (client.allHeaderHashes n).isSome }

variable [Hashing] (crate : RlpCrate) (eip1559 : Bool) (ethash : EthashCrate)

/-- A header that the call adds without making it the best one is less than
`finalized_gc_threshold` above every stored number. -/
def InsideWindow (archive : Archive) (call : Call) : Prop :=
  ∀ submission header, call = .addBlockHeader submission →
    BlockHeader.decode crate eip1559 submission.blockHeader = some header →
    (archive.client.addBlockHeader crate eip1559 ethash submission.env submission.blockHeader
      submission.dagNodes).isSome → archive.client.wouldBeBest header = false →
    ∀ n ∈ archive.client.heights, header.number.toNat < n + archive.client.finalizedGcThreshold

variable {crate eip1559 ethash}

/-- A header that is new in the archive is the one that the call has submitted. -/
theorem call_of_accepted {archive : Archive} {call : Call} {header : BlockHeader}
    (more : ((archiveMachine crate eip1559 ethash).next archive call).accepted =
      archive.accepted ++ [header]) :
    ∃ submission, call = .addBlockHeader submission ∧
      BlockHeader.decode crate eip1559 submission.blockHeader = some header ∧
      (archive.client.addBlockHeader crate eip1559 ethash submission.env submission.blockHeader
        submission.dagNodes).isSome := by
  cases call with
  | addBlockHeader submission =>
    refine ⟨submission, rfl, ?_⟩
    simp only [archiveMachine] at more
    cases success : archive.client.addBlockHeader crate eip1559 ethash submission.env
        submission.blockHeader submission.dagNodes with
    | none => simp [success] at more
    | some after =>
      simp only [success, List.append_cancel_left_eq, Option.toList_eq_singleton_iff] at more
      exact ⟨more, rfl⟩
  | setPaused env paused => simp [archiveMachine] at more
  | updateTrustedSigner env trustedSigner => simp [archiveMachine] at more

omit [Hashing] in
theorem Held.mem_heights_iff {first top : BlockHeader} {accepted : List BlockHeader} {low : Nat}
    {client : Client} (held : Held first accepted low client.store) (member : top ∈ accepted)
    (highest : ∀ header ∈ accepted, header.number.toNat ≤ top.number.toNat) (n : Nat) :
    n ∈ client.heights ↔ low ≤ n ∧ n ≤ top.number.toNat :=
  held.numbers_iff member highest n

omit [Hashing] in
/-- If all accepted headers are in one window, so are the stored numbers. -/
theorem Held.encard_heights {first : BlockHeader} {accepted : List BlockHeader} {low : Nat}
    {client : Client} (held : Held first accepted low client.store) {threshold : Nat}
    (window : ∀ header ∈ accepted, header.number.toNat < low + threshold) :
    client.heights.encard ≤ threshold := by
  obtain ⟨top, member, highest⟩ := held.forest.exists_highest
  have inside : client.heights ⊆ Finset.Ico low (low + threshold) := by
    intro n here
    obtain ⟨lower, upper⟩ := (held.mem_heights_iff member highest n).mp here
    have bound := window top member
    simp only [Finset.coe_Ico, Set.mem_Ico]
    omega
  calc client.heights.encard ≤ (Finset.Ico low (low + threshold) : Set Nat).encard :=
        Set.encard_le_encard inside
    _ = threshold := by
        rw [Set.encard_coe_eq_coe_finsetCard, Nat.card_Ico, Nat.add_sub_cancel_left]

/-- A step inside the window keeps all accepted headers in it. -/
theorem window_next {submitted : Set Bytes} {archive : Archive} {best : BlockHeader} {low : Nat}
    {call : Call} (sound : Sound crate eip1559 submitted archive best low) {threshold : Nat}
    (window : (∀ header ∈ archive.accepted, header.number.toNat < low + threshold) ∧
      archive.client.finalizedGcThreshold = threshold)
    (inside : InsideWindow crate eip1559 ethash archive call)
    (step : Step crate eip1559 submitted archive low
      ((archiveMachine crate eip1559 ethash).next archive call)) :
    ∃ best low, Sound crate eip1559 submitted ((archiveMachine crate eip1559 ethash).next archive call)
        best low ∧
      (∀ header ∈ ((archiveMachine crate eip1559 ethash).next archive call).accepted,
        header.number.toNat < low + threshold) ∧
      ((archiveMachine crate eip1559 ethash).next archive call).client.finalizedGcThreshold =
        threshold := by
  obtain ⟨window, rfl⟩ := window
  have added : ∀ header, ((archiveMachine crate eip1559 ethash).next archive call).accepted =
      archive.accepted ++ [header] → archive.client.wouldBeBest header = false →
      header.number.toNat < low + archive.client.finalizedGcThreshold := by
    intro header more worse
    obtain ⟨submission, rfl, decoded, success⟩ := call_of_accepted more
    apply inside submission header rfl decoded success worse
    obtain ⟨top, member, highest⟩ := sound.kept.held.forest.exists_highest
    have bound := highest best sound.kept.member
    have lower := sound.kept.low
    exact (sound.kept.held.mem_heights_iff member highest low).mpr ⟨Nat.le_refl _, by omega⟩
  generalize (archiveMachine crate eip1559 ethash).next archive call = after at added step ⊢
  cases step with
  | paused mask => exact ⟨best, low, sound.pause mask, window, rfl⟩
  | @added _ header _ hash bestInfo parentInfo given decoded attaches accepts =>
    obtain ⟨-, -, same⟩ := recorded_settings archive.client header hash bestInfo parentInfo
    cases better : archive.client.wouldBeBest header with
    | true =>
      refine ⟨_, _, sound.updateCanonical given decoded attaches accepts better, fun other member => ?_, same⟩
      rcases List.mem_append.mp member with old | new
      · have bound := window other old
        omega
      · rw [List.mem_singleton.mp new]
        omega
    | false =>
      refine ⟨_, _, sound.insertHeader given decoded attaches accepts better, fun other member => ?_, same⟩
      rcases List.mem_append.mp member with old | new
      · exact window other old
      · rw [List.mem_singleton.mp new]
        exact added header rfl better

/-- In every run in which no lighter header is added outside the window, the client
stores at most `finalized_gc_threshold` numbers. -/
theorem heights_bounded (crate : RlpCrate) (eip1559 : Bool) (ethash : EthashCrate) (config : Config)
    (archive : Archive) (calls : List Call)
    (opened : openArchive crate eip1559 config = some archive)
    (permissionless : Permissionless config calls)
    (inside : (archiveMachine crate eip1559 ethash).StepsMeet (InsideWindow crate eip1559 ethash)
      archive calls) :
    ((archiveMachine crate eip1559 ethash).run archive calls).client.heights.encard ≤
      config.finalizedGcThreshold := by
  have initial : (∀ header ∈ archive.accepted,
      header.number.toNat < archive.first.number.toNat + config.finalizedGcThreshold) ∧
      archive.client.finalizedGcThreshold = config.finalizedGcThreshold := by
    have positive := permissionless.positive
    simp only [openArchive, init, Option.bind_eq_bind, Option.bind_eq_some_iff, Option.pure_def,
      Option.some.injEq] at opened
    obtain ⟨client, ⟨-, -, header, decoded, hash, named, rfl⟩, first, decoded', rfl⟩ := opened
    refine ⟨fun other member => ?_, rfl⟩
    rw [List.mem_singleton.mp member]
    exact Nat.lt_add_of_pos_right positive
  rw [← List.append_nil calls] at permissionless
  obtain ⟨best, low, sound, window, -⟩ := run_sound_of_steps opened permissionless inside
    (fun archive _ low => (∀ header ∈ archive.accepted,
      header.number.toNat < low + config.finalizedGcThreshold) ∧
      archive.client.finalizedGcThreshold = config.finalizedGcThreshold) initial
    fun sound window inside step => window_next sound window inside step
  exact sound.kept.held.encard_heights window

section Sample

omit [Hashing]

/-- A bounded check for `InsideWindow`: the stored numbers below the submitted one. -/
def insideWindow (archive : Archive) : Call → Bool
  | .addBlockHeader submission =>
    (BlockHeader.decode .reference true submission.blockHeader).all fun header =>
      archive.client.wouldBeBest header || (List.range header.number.toNat).all fun n =>
        (archive.client.allHeaderHashes n).isNone ||
          header.number.toNat < n + archive.client.finalizedGcThreshold
  | _ => true

theorem insideWindow_of_check [Hashing] {archive : Archive} {call : Call}
    (checked : 0 < archive.client.finalizedGcThreshold ∧ insideWindow archive call = true) :
    InsideWindow .reference true sampleEthash archive call := by
  rintro submission header rfl decoded - worse n stored
  obtain ⟨positive, checked⟩ := checked
  rw [insideWindow, decoded, Option.all_some, worse, Bool.false_or, List.all_eq_true] at checked
  rcases Nat.lt_or_ge n header.number.toNat with lower | higher
  · have near := checked n (List.mem_range.mpr lower)
    simpa [Option.isSome_iff_ne_none.mp stored] using near
  · omega

/-- Two headers of the right branch are added beside the best one. -/
theorem heights_bounded_sample :
    letI := Hashing.platform
    ∃ archive, openArchive .reference true sampleConfig = some archive ∧
      let reached := (archiveMachine .reference true sampleEthash).run archive (forkedCalls.take 4)
      reached.client.bestHeaderHash = leftHash 2 ∧ reached.accepted.length = 5 ∧
      (∃ hashes, reached.client.allHeaderHashes 2 = some hashes ∧ rightHash 2 ∈ hashes) ∧
      reached.client.heights.encard ≤ 2 := by
  have permissionless := permissionless_sample
    (show [leftBlock 1, rightBlock 1, leftBlock 2, rightBlock 2] ⊆ sampleBlocks by simp [sampleBlocks])
  rw [← sampleDigests_right] at permissionless ⊢
  let := Hashing.lookup sampleDigests
  have computed : (openArchive .reference true sampleConfig).map (fun archive =>
      let reached := (archiveMachine .reference true sampleEthash).run archive (forkedCalls.take 4)
      (reached.client.bestHeaderHash, reached.accepted.length,
        (reached.client.allHeaderHashes 2).any fun hashes => rightHash 2 ∈ hashes,
        decide ((archiveMachine .reference true sampleEthash).StepsMeet (fun archive call =>
          0 < archive.client.finalizedGcThreshold ∧ insideWindow archive call = true)
          archive (forkedCalls.take 4)))) =
      some (leftHash 2, 5, true, true) := by
    decide +kernel
  obtain ⟨archive, opened, results⟩ := Option.map_eq_some_iff.mp computed
  simp only [Prod.mk.injEq, Option.any_eq_true, decide_eq_true_eq] at results
  obtain ⟨best, size, beside, inside⟩ := results
  exact ⟨archive, opened, best, size, beside, heights_bounded .reference true sampleEthash sampleConfig
    archive (forkedCalls.take 4) opened permissionless
    (inside.imp fun archive call checked => insideWindow_of_check checked)⟩

/-- A header of difficulty five next to the two branches. -/
def heavyBlock : Node × Bytes :=
  (⟨digest 0x8b2e5b19ea2c8fcb7464f83c534b213b7e0844f398eb0a0072e812231b9ec005, leftHash 0, 1⟩,
    HeaderFields.encode { sampleHeader with
      parentHash := leftHash 0
      difficulty := 5
      number := 1
      gasLimit := 5000
      timestamp := 1
      extraData := [3] } (some 7))

/-- The heavy header comes first; the right branch then grows above it and stays
lighter. -/
def growingBlocks : List (Node × Bytes) := [heavyBlock, rightBlock 1, rightBlock 2]

def growingCalls : List Call := growingBlocks.map submit

def growingDigests : List (Bytes × Bytes32) :=
  (firstBlock :: growingBlocks).map fun block => (block.2, block.1.hash)

theorem growingBlocks_hash : ∀ block ∈ firstBlock :: growingBlocks, Keccak.hash block.2 = block.1.hash := by
  have heavy : Keccak.hash heavyBlock.2 = heavyBlock.1.hash := by decide +kernel
  have known : ∀ block ∈ [firstBlock, rightBlock 1, rightBlock 2], Keccak.hash block.2 = block.1.hash := by
    have among : [firstBlock, rightBlock 1, rightBlock 2] ⊆ firstBlock :: sampleBlocks := by
      simp [sampleBlocks]
    exact fun block member => sampleBlocks_hash block (among member)
  intro block member
  by_cases same : block = heavyBlock
  · rw [same]
    exact heavy
  · exact known block (by simpa [growingBlocks, same] using member)

theorem growingDigests_right : Hashing.lookup growingDigests = Hashing.platform :=
  lookup_blocks growingBlocks_hash

/-- With a threshold of two, headers with three numbers are stored. -/
theorem heights_exceed :
    letI := Hashing.platform
    Permissionless sampleConfig growingCalls ∧
    ∃ archive, openArchive .reference true sampleConfig = some archive ∧
      let reached := (archiveMachine .reference true sampleEthash).run archive growingCalls
      reached.accepted.length = 4 ∧
      ¬ reached.client.heights.encard ≤ sampleConfig.finalizedGcThreshold := by
  rw [← growingDigests_right]
  let := Hashing.lookup growingDigests
  have computed : (openArchive .reference true sampleConfig).map (fun archive =>
      let reached := (archiveMachine .reference true sampleEthash).run archive growingCalls
      (reached.accepted.length, [0, 1, 2].map fun n => (reached.client.allHeaderHashes n).isSome)) =
      some (4, [true, true, true]) := by
    decide +kernel
  obtain ⟨archive, opened, results⟩ := Option.map_eq_some_iff.mp computed
  simp only [Prod.mk.injEq] at results
  obtain ⟨size, stored⟩ := results
  have named : ∀ block ∈ firstBlock :: growingBlocks, keccak256 block.2 = block.1.hash := by
    decide +kernel
  refine ⟨permissionless_blocks (collisionFree_blocks named (by decide +kernel) fun _ given => given),
    archive, opened, size, fun bounded => ?_⟩
  have three : (({0, 1, 2} : Finset Nat) : Set Nat) ⊆
      ((archiveMachine .reference true sampleEthash).run archive growingCalls).client.heights := by
    simp only [List.map_cons, List.map_nil, List.cons.injEq, and_true] at stored
    intro n member
    simp only [Finset.coe_insert, Finset.coe_singleton, Set.mem_insert_iff,
      Set.mem_singleton_iff] at member
    rcases member with rfl | rfl | rfl
    · exact stored.1
    · exact stored.2.1
    · exact stored.2.2
  have impossible := (Set.encard_le_encard three).trans bounded
  rw [Set.encard_coe_eq_coe_finsetCard] at impossible
  exact absurd impossible (by decide)

end Sample

end RainbowBridge.EthClient
