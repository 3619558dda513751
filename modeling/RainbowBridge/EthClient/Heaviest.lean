import RainbowBridge.EthClient.Archive

/-! What `record_header` makes of a client that holds headers of a tree: the best
header stays a heaviest one among all that were ever accepted. -/

namespace RainbowBridge.EthClient

open Lib EthTypes Near

section Record

variable {client after : Client} {header : BlockHeader} {hash : H256} {bestInfo parentInfo : HeaderInfo}

/-- The canonical chain under the recorded header, when no hash is above the best one. -/
theorem canonicalUnder_recorded {accepted : List BlockHeader} {low : Nat} {older : BlockHeader}
    (attaches : Attaches accepted low header older) (named : header.hash = some hash)
    (above : ∀ n, bestInfo.number < n → client.canonicalHeaderHashes n = none) :
    (client.insertHeader header hash (childInfo parentInfo header)).canonicalUnder hash
      (childInfo parentInfo header) bestInfo =
      replacePast (client.infos.insert hash (childInfo parentInfo header)) older.number.toNat
        header.parentHash (cleared client.canonicalHeaderHashes (toNode header)) := by
  have level : (toNode header).number - 1 = older.number.toNat := Nat.sub_eq_of_eq_add attaches.number
  have same : (childInfo parentInfo header).number = (toNode header).number := rfl
  rw [← toNode_hash named, ← level]
  exact canonicalUnder_eq (by exact above) same

/-- What `record_header` leaves alone. -/
theorem recorded_settings (client : Client) (header : BlockHeader) (hash : H256)
    (bestInfo parentInfo : HeaderInfo) :
    let after := client.recorded header hash bestInfo parentInfo
    after.trustedSigner = client.trustedSigner ∧
      after.hashesGcThreshold = client.hashesGcThreshold ∧
      after.finalizedGcThreshold = client.finalizedGcThreshold := by
  simp only [Client.recorded]
  split <;> exact ⟨rfl, rfl, rfl⟩

end Record

/-- The stored headers, and a best one among all that were ever accepted. -/
structure Kept (first : BlockHeader) (accepted : List BlockHeader) (client : Client)
    (best : BlockHeader) (low : Nat) : Prop where
  held : Held first accepted low client.store
  positive : 0 < client.finalizedGcThreshold
  member : best ∈ accepted
  hash : best.hash = some client.bestHeaderHash
  low : low ≤ best.number.toNat
  heaviest : ∀ header ∈ accepted, ∀ total bestTotal, TotalDifficulty first accepted header total →
    TotalDifficulty first accepted best bestTotal → total ≤ bestTotal

namespace Kept

variable {first best header older : BlockHeader} {accepted : List BlockHeader} {client : Client}
  {low : Nat} {hash : H256} {bestInfo parentInfo : HeaderInfo}

/-- The info of the best header is always there. -/
theorem info_best (kept : Kept first accepted client best low) :
    ∃ info, client.infos client.bestHeaderHash = some info ∧ info.number = best.number.toNat ∧
      TotalDifficulty first accepted best info.totalDifficulty := by
  have found := kept.held.info kept.member kept.low
  rwa [toNode_hash kept.hash] at found

theorem becomesBest_iff {info bestInfo : HeaderInfo} {difficulty : U256} :
    becomesBest info bestInfo difficulty = true ↔ bestInfo.totalDifficulty < info.totalDifficulty ∨
      info.totalDifficulty = bestInfo.totalDifficulty ∧ difficulty.toNat % 2 = 0 := by
  simp [becomesBest]

theorem total_best (kept : Kept first accepted client best low)
    (accepts : Accepts client header hash bestInfo parentInfo) :
    TotalDifficulty first accepted best bestInfo.totalDifficulty := by
  obtain ⟨info, found, -, total⟩ := kept.info_best
  obtain rfl := Option.some.inj (accepts.best.symm.trans found)
  exact total

theorem bestNumber (kept : Kept first accepted client best low)
    (accepts : Accepts client header hash bestInfo parentInfo) : bestInfo.number = best.number.toNat := by
  obtain ⟨info, found, number, -⟩ := kept.info_best
  obtain rfl := Option.some.inj (accepts.best.symm.trans found)
  exact number

section Step

variable (kept : Kept first accepted client best low) (attaches : Attaches accepted low header older)
  (accepts : Accepts client header hash bestInfo parentInfo)

include kept attaches accepts

theorem total_child :
    TotalDifficulty first (accepted ++ [header]) header (childInfo parentInfo header).totalDifficulty := by
  have parent := accepts.parent
  rw [← toNode_hash attaches.hash] at parent
  exact .child attaches.link ((kept.held.totals older attaches.parent parentInfo parent).mono
    (List.subset_append_left _ _))

theorem held_insert : Held first (accepted ++ [header]) low
    (client.insertHeader header hash (childInfo parentInfo header)).store :=
  kept.held.insertHeader attaches accepts.named accepts.parent accepts.unknown rfl rfl rfl

/-- In the larger tree an old header has the total difficulty it had before. -/
theorem total_before {other : BlockHeader} (member : other ∈ accepted) {total : Nat}
    (sum : TotalDifficulty first (accepted ++ [header]) other total) :
    TotalDifficulty first accepted other total := by
  obtain ⟨before, known⟩ := kept.held.forest.exists_total member
  have same := (kept.held_insert attaches accepts).forest.total_unique sum
    (known.mono (List.subset_append_left _ _))
  rwa [same]

/-- The best header stays when the new one is lighter. -/
theorem insertHeader (worse : client.wouldBeBest header = false) :
    Kept first (accepted ++ [header]) (client.recorded header hash bestInfo parentInfo) best low := by
  have inserted := kept.held_insert attaches accepts
  rw [Client.recorded, if_neg (by rw [worse]; decide)]
  refine ⟨inserted, kept.positive, List.mem_append_left _ kept.member, kept.hash, kept.low,
    fun other member total bestTotal sum bestSum => ?_⟩
  have bestSum := kept.total_before attaches accepts kept.member bestSum
  rcases List.mem_append.mp member with old | new
  · exact kept.heaviest other old total bestTotal (kept.total_before attaches accepts old sum) bestSum
  · rw [List.mem_singleton.mp new] at sum
    rw [inserted.forest.total_unique sum (kept.total_child attaches accepts),
      kept.held.forest.total_unique bestSum (kept.total_best accepts)]
    rw [wouldBeBest_eq accepts.best accepts.parent, ← Bool.not_eq_true, becomesBest_iff] at worse
    omega

/-- A new best header, and what is collected under it. -/
theorem updateCanonical (better : client.wouldBeBest header = true) :
    Kept first (accepted ++ [header]) (client.recorded header hash bestInfo parentInfo) header
      (max low (header.number.toNat + 1 - client.finalizedGcThreshold)) := by
  have inserted := kept.held_insert attaches accepts
  have last : header ∈ accepted ++ [header] := by simp
  have lower := attaches.lower
  have number := attaches.number
  have positive := kept.positive
  rw [Client.recorded, if_pos better]
  refine ⟨inserted.updateCanonical last rfl, positive, last, accepts.named, by omega,
    fun other member total newTotal sum newSum => ?_⟩
  rcases List.mem_append.mp member with old | new
  · have bound := kept.heaviest other old total _ (kept.total_before attaches accepts old sum)
      (kept.total_best accepts)
    rw [inserted.forest.total_unique newSum (kept.total_child attaches accepts)]
    rw [wouldBeBest_eq accepts.best accepts.parent, becomesBest_iff] at better
    omega
  · rw [List.mem_singleton.mp new] at sum
    rw [inserted.forest.total_unique sum newSum]

/-- How the best header and its total difficulty change. -/
theorem recorded_best {info : HeaderInfo}
    (found : (client.recorded header hash bestInfo parentInfo).infos
      (client.recorded header hash bestInfo parentInfo).bestHeaderHash = some info) :
    bestInfo.totalDifficulty ≤ info.totalDifficulty ∧
      ((client.recorded header hash bestInfo parentInfo).bestHeaderHash ≠ client.bestHeaderHash →
        header.hash = some (client.recorded header hash bestInfo parentInfo).bestHeaderHash ∧
        (bestInfo.totalDifficulty < info.totalDifficulty ∨
          info.totalDifficulty = bestInfo.totalDifficulty ∧ header.difficulty.toNat % 2 = 0)) := by
  have forest := (kept.held_insert attaches accepts).forest
  cases better : client.wouldBeBest header with
  | false =>
    obtain ⟨info', found', -, sum⟩ := (kept.insertHeader attaches accepts better).info_best
    obtain rfl := Option.some.inj (found.symm.trans found')
    have same := forest.total_unique sum
      ((kept.total_best accepts).mono (List.subset_append_left _ _))
    refine ⟨Nat.le_of_eq same.symm, fun different => absurd ?_ different⟩
    rw [Client.recorded, if_neg (by rw [better]; decide)]
    rfl
  | true =>
    have kept' := kept.updateCanonical attaches accepts better
    obtain ⟨info', found', -, sum⟩ := kept'.info_best
    obtain rfl := Option.some.inj (found.symm.trans found')
    have same := forest.total_unique sum (kept.total_child attaches accepts)
    rw [wouldBeBest_eq accepts.best accepts.parent, becomesBest_iff, ← same] at better
    exact ⟨by omega, fun _ => ⟨kept'.hash, better⟩⟩

end Step

end Kept

end RainbowBridge.EthClient
