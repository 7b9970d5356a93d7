import Opolys.Consensus.Standing
import Opolys.Node.Attesting

/-!
# Finality

The votes for a block are gathered over many blocks in an index of attesters, which is
pruned, while the refiners whose votes they are come and go. A vote is counted in the block
that brings an attestation for the same target, with the stake its refiner has then, and
against the stake of all who are active then. So what has to be carried along a run is
only that everyone in the index has signed for the block it is filed under.
-/

namespace Opolys

open Effect
open Std (ExtTreeMap ExtTreeSet)
open Codec (FixedBytes)

variable {P : Primitives}

/-! ## Votes -/

/-- An attestation signed under the key of its refiner. -/
structure ValidAttestation (P : Primitives) (attestation : BlockAttestation) : Prop where
  key : ∃ pk : FixedBytes 32, pk.bytes = attestation.refinerPubkey ∧
    ed25519PublicKeyToObjectId P pk = attestation.refiner
  signature : verifyEd25519 P attestation.refinerPubkey
    (blockAttestationSigningPayload attestation.height attestation.blockHash)
    attestation.signature = true

/-- One of the calls has brought a valid attestation of the refiner for height and hash. -/
def Voted (P : Primitives) (calls : List Call) (target : UInt64 × Hash) (refiner : ObjectId) :
    Prop :=
  ∃ call ∈ calls, ∃ attestation ∈ call.block.attestations, ValidAttestation P attestation ∧
    attestation.refiner = refiner ∧ attestation.height = target.1 ∧
      attestation.blockHash = target.2

/-- Everyone in the index has voted for the block under which it is filed. -/
def OpolysNode.IndexSound (P : Primitives) (calls : List Call) (node : OpolysNode) : Prop :=
  ∀ target attesters, node.chain.attestationFinalityRefiners[target]? = some attesters →
    ∀ refiner ∈ attesters, Voted P calls target refiner

theorem Voted.mono {calls calls' : List Call} {target : UInt64 × Hash} {refiner : ObjectId}
    (h : Voted P calls target refiner) (hsub : calls ⊆ calls') : Voted P calls' target refiner := by
  obtain ⟨call, hcall, rest⟩ := h
  exact ⟨call, hsub hcall, rest⟩

theorem verifyBlockAttestation_eq_ok {attestation : BlockAttestation} {canonicalHash : Hash}
    {refiners : RefinerSet}
    (h : verifyBlockAttestationAgainstRefiners P attestation canonicalHash refiners = .ok ()) :
    ValidAttestation P attestation ∧ attestation.blockHash = canonicalHash ∧
      ∃ r, refiners.getRefiner attestation.refiner = some r ∧ r.status = .active := by
  unfold verifyBlockAttestationAgainstRefiners at h
  split at h
  · cases h
  · rename_i pkArr hpk
    rw [check_bind_eq_ok, check_bind_eq_ok, check_bind_eq_ok] at h
    obtain ⟨-, hhash, hkey, h⟩ := h
    split at h
    · cases h
    · rename_i r hr
      rw [check_bind_eq_ok, check_eq_ok] at h
      obtain ⟨hactive, hsignature⟩ := h
      exact ⟨⟨⟨pkArr, FixedBytes.bytes_of_ofList? hpk, hkey⟩, hsignature⟩, hhash, r, hr, hactive⟩

/-! ## Stakes -/

namespace RefinerSet

/-- The records of those that are active. -/
def activeAmong (set : RefinerSet) (ids : List ObjectId) : List RefinerInfo :=
  (ids.filterMap set.getRefiner).filter fun r => r.status = .active

/-- The stake of records, without overflow. -/
def stakeOf (rs : List RefinerInfo) : ℕ := (rs.map fun r => r.totalStake.toNat).sum

theorem mem_activeAmong {set : RefinerSet} {ids : List ObjectId} {r : RefinerInfo}
    (h : r ∈ set.activeAmong ids) :
    r.objectId ∈ ids ∧ r ∈ set.allRefiners ∧ r.status = .active := by
  obtain ⟨hmem, hactive⟩ := List.mem_filter.mp h
  obtain ⟨id, hid, hr⟩ := List.mem_filterMap.mp hmem
  obtain ⟨hvalues, rfl⟩ := Registry.get?_eq_some.mp hr
  exact ⟨hid, hvalues, of_decide_eq_true hactive⟩

theorem map_objectId_activeAmong (set : RefinerSet) (ids : List ObjectId) :
    ((set.activeAmong ids).map RefinerInfo.objectId).Sublist ids := by
  refine (List.filter_sublist.map _).trans ?_
  induction ids with
  | nil => exact List.Sublist.refl _
  | cons id ids ih =>
    cases hr : set.getRefiner id with
    | none =>
      rw [List.filterMap_cons_none hr]
      exact ih.cons _
    | some r =>
      have hid : r.objectId = id := Registry.name_of_get? (v := r) hr
      rw [List.filterMap_cons_some hr, List.map_cons, hid]
      exact ih.cons_cons _

theorem stakeOf_activeAmong_eq {a b : RefinerSet} (h : ∀ id, b.standing id = a.standing id)
    (ids : List ObjectId) : stakeOf (b.activeAmong ids) = stakeOf (a.activeAmong ids) := by
  unfold activeAmong stakeOf
  induction ids with
  | nil => rfl
  | cons id ids ih =>
    have hid := h id
    unfold standing at hid
    cases ha : a.getRefiner id with
    | none =>
      rw [ha, Option.map_none, Option.map_eq_none_iff] at hid
      rw [List.filterMap_cons_none hid, List.filterMap_cons_none ha, ih]
    | some r =>
      rw [ha, Option.map_some, Option.map_eq_some_iff] at hid
      obtain ⟨r', hb, hstanding⟩ := hid
      obtain ⟨hentries, hstatus⟩ := Prod.mk.inj hstanding
      have hstake : r'.totalStake = r.totalStake := by
        unfold RefinerInfo.totalStake
        rw [hentries]
      rw [List.filterMap_cons_some hb, List.filterMap_cons_some ha, List.filter_cons,
        List.filter_cons, hstatus]
      split
      · rw [List.map_cons, List.map_cons, List.sum_cons, List.sum_cons, ih, hstake]
      · exact ih

theorem weight_eq_totalStake (r : RefinerInfo) (timestamp : UInt64) :
    r.weight timestamp = r.totalStake := rfl

/-- The threshold is two thirds of the active stake, rounded up. -/
theorem threshold_eq (set : RefinerSet) (timestamp : UInt64) :
    activeRefinerWeightMilliThreshold set timestamp =
      (stakeOf (set.allRefiners.filter fun r => r.status = .active) * 667 + 999) / 1000 := rfl

/-- The counted weight is at most the stake of the active attesters. -/
theorem indexedAttestationWeight_le (attesters : ExtTreeSet ObjectId) (set : RefinerSet)
    (timestamp : UInt64) :
    indexedAttestationWeightForRefiners attesters set timestamp ≤
      stakeOf (set.activeAmong attesters.toList) := by
  have hfold (rs : List RefinerInfo) (weight : ℕ) :
      rs.foldl (fun weight r => MachineInt.saturatingAdd128 weight (r.weight timestamp).toNat)
        weight ≤ weight + stakeOf rs := by
    induction rs generalizing weight with
    | nil => exact Nat.le_add_right _ _
    | cons r rs ih =>
      rw [List.foldl_cons]
      refine (ih _).trans ?_
      have hstep : MachineInt.saturatingAdd128 weight (r.weight timestamp).toNat ≤
          weight + r.totalStake.toNat := min_le_left _ _
      unfold stakeOf
      rw [List.map_cons, List.sum_cons]
      omega
  exact (hfold _ 0).trans (Nat.zero_add _).le

end RefinerSet

/-! ## Counting -/

/-- The block at a height is refined, and at least two thirds of the stake that is active
at the start belongs to active refiners who have voted for it. -/
structure Quorum (P : Primitives) (calls : List Call) (header : BlockHeader)
    (start : OpolysNode) (height : UInt64) : Prop where
  below : height < header.height
  exists_voters : ∃ store block voters, start.store = some store ∧
    store.loadBlock height = some block ∧ block.header.isRefined = true ∧
      (voters.map RefinerInfo.objectId).Nodup ∧
      (∀ r ∈ voters, r ∈ start.refiners.allRefiners ∧ r.status = .active ∧
        Voted P calls (height, computeBlockHash P block.header) r.objectId) ∧
      (RefinerSet.stakeOf (start.refiners.allRefiners.filter fun r => r.status = .active) * 667 +
        999) / 1000 ≤ RefinerSet.stakeOf voters

/-- While the attestations of a block are processed: nothing but votes has been counted. -/
structure Attesting (P : Primitives) (calls : List Call) (header : BlockHeader)
    (start : OpolysNode) (log : AttestationLog) (node : OpolysNode) : Prop where
  votes : start.VotesOnly node
  finalizedHeight_eq : node.chain.finalizedHeight = start.chain.finalizedHeight
  index : node.IndexSound P calls
  standing : ∀ id, node.refiners.standing id = start.refiners.standing id
  touched : ∀ target ∈ log.touched, target.1 < header.height ∧ ∃ store block,
    start.store = some store ∧ store.loadBlock target.1 = some block ∧
      block.header.isRefined = true ∧ target.2 = computeBlockHash P block.header

theorem indexSound_recordAttester {calls : List Call} {node : OpolysNode}
    (h : node.IndexSound P calls) {target : UInt64 × Hash} {refiner : ObjectId}
    (hvoted : Voted P calls target refiner) :
    (recordAttester target refiner node).IndexSound P calls := by
  intro target' attesters hget id hid
  unfold recordAttester at hget
  dsimp only at hget
  rw [FiniteMap.getElem?_insert'] at hget
  split at hget
  · rename_i htarget
    subst htarget
    cases hget
    rcases ExtTreeSet.mem_insert.mp hid with heq | hmem
    · obtain rfl := Std.LawfulEqCmp.eq_of_compare heq
      exact hvoted
    · rw [ExtTreeMap.getD_eq_getD_getElem?] at hmem
      cases hold : node.chain.attestationFinalityRefiners[target]? with
      | none =>
        rw [hold, Option.getD_none] at hmem
        exact absurd hmem ExtTreeSet.not_mem_empty
      | some old =>
        rw [hold, Option.getD_some] at hmem
        exact h target old hold id hmem
  · exact h target' attesters hget id hid

theorem processAttestation_attesting {calls : List Call} {call : Call} (hcall : call ∈ calls)
    {start node : OpolysNode} {log : AttestationLog} {attestation : BlockAttestation}
    (hmem : attestation ∈ call.block.attestations)
    (h : Attesting P calls call.block.header start log node) :
    Ends (processAttestation P call.block.header log attestation) node
      (Attesting P calls call.block.header start)
      (fun _ node' => Attesting P calls call.block.header start log node') := by
  unfold processAttestation
  refine Ends.ensure_bind (fun _ => h) fun hheight => ?_
  refine Ends.ensure_bind (fun _ => h) fun _ => ?_
  refine Ends.get_bind (Ends.require_bind (fun _ => h) fun store hstore => ?_)
  refine Ends.require_bind (fun _ => h) fun attested hload => ?_
  refine Ends.ensure_bind (fun _ => h) fun hrefined => ?_
  refine Ends.get_bind (Ends.ofExcept_bind (fun _ _ => h) fun _ hverify => ?_)
  obtain ⟨hvalid, hhash, -⟩ := verifyBlockAttestation_eq_ok hverify
  have hvoted : Voted P calls (attestation.height, computeBlockHash P attested.header)
      attestation.refiner := ⟨call, hcall, attestation, hmem, hvalid, rfl, rfl, hhash⟩
  have hrecorded : Attesting P calls call.block.header start log
      (recordAttester (attestation.height, computeBlockHash P attested.header)
        attestation.refiner node) :=
    ⟨h.votes.trans rfl, h.finalizedHeight_eq, indexSound_recordAttester h.index hvoted,
      h.standing, h.touched⟩
  have hsame : start.store = some store := by
    rw [← hstore, h.votes]
  refine Ends.modify_bind (Ends.get_bind (Ends.ofExcept_bind (fun _ _ => hrecorded) ?_))
  intro refiners hrecord
  refine Ends.modify_bind (Ends.pure ⟨hrecorded.votes.trans rfl, hrecorded.finalizedHeight_eq,
    hrecorded.index, fun id => ?_, fun target htarget => ?_⟩)
  · exact (RefinerSet.standing_recordCorrectAttestation hrecord id).trans (h.standing id)
  · rcases ExtTreeSet.mem_insert.mp htarget with heq | htarget
    · obtain rfl := Std.LawfulEqCmp.eq_of_compare heq
      exact ⟨hheight, store, attested, hsame, hload, hrefined, rfl⟩
    · exact h.touched target htarget

/-- The weights that are compared with the threshold are those of touched blocks. -/
theorem weight_of_touched {index : ExtTreeMap (UInt64 × Hash) (ExtTreeSet ObjectId)}
    {refiners : RefinerSet} {timestamp : UInt64} {targets : List (UInt64 × Hash)}
    {weights : ExtTreeMap UInt64 ℕ} {height : UInt64} {weight : ℕ}
    (h : (targets.foldl (fun (weights : ExtTreeMap UInt64 ℕ) target =>
      match index[target]? with
      | none => weights
      | some attesters => weights.insert target.1
          (indexedAttestationWeightForRefiners attesters refiners timestamp)) weights)[height]? =
        some weight) :
    weights[height]? = some weight ∨ ∃ target ∈ targets, target.1 = height ∧
      ∃ attesters, index[target]? = some attesters ∧
        weight = indexedAttestationWeightForRefiners attesters refiners timestamp := by
  induction targets generalizing weights with
  | nil => exact Or.inl h
  | cons target targets ih =>
    rcases ih h with h | ⟨target', hmem, rest⟩
    · dsimp only at h
      split at h
      · exact Or.inl h
      · rename_i attesters hattesters
        rw [FiniteMap.getElem?_insert'] at h
        split at h
        · rename_i hheight
          cases h
          exact Or.inr ⟨target, List.mem_cons_self, hheight, attesters, hattesters, rfl⟩
        · exact Or.inl h
    · exact Or.inr ⟨target', List.mem_cons_of_mem _ hmem, rest⟩

theorem foldl_max_eq_or_mem (xs : List UInt64) (a : UInt64) :
    xs.foldl max a = a ∨ xs.foldl max a ∈ xs := by
  induction xs generalizing a with
  | nil => exact Or.inl rfl
  | cons x xs ih =>
    rw [List.foldl_cons]
    rcases ih (max a x) with h | h
    · rw [h]
      by_cases hle : a ≤ x
      · rw [show max a x = x from if_pos hle]
        exact Or.inr List.mem_cons_self
      · rw [show max a x = a from if_neg hle]
        exact Or.inl rfl
    · exact Or.inr (List.mem_cons_of_mem _ h)

/-- A finalized height above the current one has the weight. -/
theorem finalizedHeight_of_weights {current : UInt64} {weights : ExtTreeMap UInt64 ℕ}
    {threshold : ℕ}
    (h : finalizedHeightFromAttestationWeights current weights threshold ≠ current) :
    ∃ weight, weights[finalizedHeightFromAttestationWeights current weights threshold]? =
      some weight ∧ threshold ≤ weight := by
  unfold finalizedHeightFromAttestationWeights at h ⊢
  split at h
  · exact absurd rfl h
  · rename_i hthreshold
    rw [if_neg hthreshold]
    dsimp only at h ⊢
    rcases foldl_max_eq_or_mem _ current with heq | hmem
    · exact absurd heq h
    · obtain ⟨⟨height, weight⟩, hentry, heq⟩ := List.mem_map.mp hmem
      obtain ⟨hentry, hcond⟩ := List.mem_filter.mp hentry
      rw [← heq]
      exact ⟨weight, FiniteMap.mem_toList.mp hentry, (of_decide_eq_true hcond).2⟩

/-- When the finalized height rises, a quorum has voted for the block there. -/
theorem advanceFinality_quorum {calls : List Call} {header : BlockHeader}
    {start node : OpolysNode} {log : AttestationLog}
    (h : Attesting P calls header start log node) (timestamp : UInt64) :
    let node' := advanceFinality (activeRefinerWeightMilliThreshold start.refiners timestamp)
      timestamp log.touched node
    node'.IndexSound P calls ∧
      start.chain.finalizedHeight ≤ node'.chain.finalizedHeight ∧
      (start.chain.finalizedHeight < node'.chain.finalizedHeight →
        Quorum P calls header start node'.chain.finalizedHeight) := by
  intro node'
  have hcurrent : node'.chain.finalizedHeight = max node.chain.finalizedHeight
      (finalizedHeightFromAttestationWeights node.chain.finalizedHeight
        (log.touched.toList.foldl (fun (weights : ExtTreeMap UInt64 ℕ) target =>
          match node.chain.attestationFinalityRefiners[target]? with
          | none => weights
          | some attesters => weights.insert target.1
              (indexedAttestationWeightForRefiners attesters node.refiners timestamp)) ∅)
        (activeRefinerWeightMilliThreshold start.refiners timestamp)) := rfl
  refine ⟨fun target attesters hget => ?_, ?_, fun hlt => ?_⟩
  · have hget : (node.chain.attestationFinalityRefiners.filter _)[target]? = some attesters := hget
    rw [ExtTreeMap.getElem?_filter', Option.filter_eq_some_iff] at hget
    exact h.index target attesters hget.1
  · rw [hcurrent, ← h.finalizedHeight_eq, UInt64.le_iff_toNat_le, MachineInt.toNat_max]
    exact le_max_left _ _
  · rw [hcurrent, h.finalizedHeight_eq] at hlt ⊢
    generalize hnew : finalizedHeightFromAttestationWeights start.chain.finalizedHeight _ _ = new
      at hlt ⊢
    have hmax : max start.chain.finalizedHeight new = new := by
      change (if start.chain.finalizedHeight ≤ new then new else _) = new
      split
      · rfl
      · rename_i hle
        rw [show max start.chain.finalizedHeight new = start.chain.finalizedHeight from
          if_neg hle] at hlt
        exact absurd hlt (UInt64.lt_irrefl _)
    rw [hmax] at hlt ⊢
    have hne : new ≠ start.chain.finalizedHeight := by
      rintro rfl
      exact UInt64.lt_irrefl _ hlt
    obtain ⟨weight, hweight, hthreshold⟩ := finalizedHeight_of_weights (hnew ▸ hne)
    rw [hnew] at hweight
    obtain hempty | ⟨target, htarget, hheight, attesters, hattesters, rfl⟩ :=
      weight_of_touched hweight
    · rw [ExtTreeMap.getElem?_empty] at hempty
      cases hempty
    · obtain ⟨hbelow, store, block, hstore, hload, hrefined, hhash⟩ :=
        h.touched target (ExtTreeSet.mem_toList.mp htarget)
      subst hheight
      refine ⟨hbelow, store, block, start.refiners.activeAmong attesters.toList, hstore, hload,
        hrefined, ?_, fun r hr => ?_, ?_⟩
      · have hdistinct : attesters.toList.Nodup :=
          ExtTreeSet.distinct_toList.imp fun hne heq => hne (Std.compare_eq_iff_eq.mpr heq)
        exact hdistinct.sublist (RefinerSet.map_objectId_activeAmong _ _)
      · obtain ⟨hid, hmem, hactive⟩ := RefinerSet.mem_activeAmong hr
        refine ⟨hmem, hactive, ?_⟩
        rw [← hhash]
        exact h.index target attesters hattesters r.objectId (ExtTreeSet.mem_toList.mp hid)
      · rw [← RefinerSet.threshold_eq _ timestamp,
          ← RefinerSet.stakeOf_activeAmong_eq h.standing]
        exact hthreshold.trans (RefinerSet.indexedAttestationWeight_le _ _ _)

/-! ## Runs -/

/-- The finalized height has not fallen, and it has risen only with a quorum. -/
def Counted (P : Primitives) (calls : List Call) (header : BlockHeader)
    (start node : OpolysNode) : Prop :=
  node.IndexSound P calls ∧ start.chain.finalizedHeight ≤ node.chain.finalizedHeight ∧
    (start.chain.finalizedHeight < node.chain.finalizedHeight →
      Quorum P calls header start node.chain.finalizedHeight)

theorem Counted.of_chain {calls : List Call} {header : BlockHeader} {start node node' : OpolysNode}
    (h : Counted P calls header start node)
    (hheight : node'.chain.finalizedHeight = node.chain.finalizedHeight)
    (hindex : node'.chain.attestationFinalityRefiners = node.chain.attestationFinalityRefiners) :
    Counted P calls header start node' := by
  unfold Counted OpolysNode.IndexSound at h ⊢
  rw [hheight, hindex]
  exact h

theorem processAttestations_counted {calls : List Call} {call : Call} (hcall : call ∈ calls)
    {node : OpolysNode} (h : node.IndexSound P calls) :
    Ends (processAttestations P call.block) node
      (fun _ => Counted P calls call.block.header node)
      (fun _ => Counted P calls call.block.header node) := by
  unfold processAttestations
  refine Ends.get_bind (Ends.bind (R := Attesting P calls call.block.header node) ?_ ?_)
  · refine (Ends.foldlM
      (E := fun _ node' => ∃ log, Attesting P calls call.block.header node log node')
      ⟨rfl, rfl, h, fun _ => rfl, fun _ hmem => absurd hmem ExtTreeSet.not_mem_empty⟩
      fun log node1 attestation hmem hattesting => ?_).mono (fun _ _ h => h) ?_
    · exact (processAttestation_attesting hcall hmem hattesting).mono (fun _ _ h => h)
        fun _ _ h => ⟨log, h⟩
    · rintro _ node' ⟨log, hattesting⟩
      refine ⟨hattesting.index, ?_, fun hlt => ?_⟩
      · rw [hattesting.finalizedHeight_eq]
        exact UInt64.le_refl _
      · rw [hattesting.finalizedHeight_eq] at hlt
        exact absurd hlt (UInt64.lt_irrefl _)
  · intro log node1 hattesting
    exact Ends.modify_bind (Ends.pure (advanceFinality_quorum hattesting _))

/-- A call moves the finalized height up or not at all, and up only with a quorum. -/
theorem counted_step {calls : List Call} {call : Call} (hcall : call ∈ calls) {node : OpolysNode}
    (h : node.IndexSound P calls) :
    Counted P calls call.block.header node (node.step P call) := by
  have hcounted := processAttestations_counted hcall h
  cases haccept : node.accepts P call with
  | true =>
    obtain ⟨st, hst⟩ := OpolysNode.accepted_of_accepts haccept
    refine (hcounted.ok hst.attest_run).of_chain ?_ ?_ <;> rw [hst.chain_eq]
  | false =>
    obtain ⟨message, hrun⟩ := OpolysNode.rejects_eq haccept
    rcases (applyBlock_rejects call.env call.block node).error hrun with
      hsame | ⟨kind, hcheck, ⟨message, hattest⟩ | ⟨finalized, hattest, hmore⟩⟩
    · rw [hsame]
      exact ⟨h, UInt64.le_refl _, fun hlt => absurd hlt (UInt64.lt_irrefl _)⟩
    · exact hcounted.error hattest
    · refine (hcounted.ok hattest).of_chain ?_ ?_ <;>
        rcases hmore with hsame | ⟨-, hfunds | hmoved⟩ <;>
          first | rw [hsame] | (rw [hfunds]; rfl) | (rw [hmoved]; rfl)

/-- Along a run everyone in the index has voted in one of the calls so far. -/
theorem indexSound_run {done : List Call} {node : OpolysNode} (h : node.IndexSound P done)
    (calls : List Call) :
    (Transition.run (OpolysNode.step P) node calls).IndexSound P (done ++ calls) := by
  induction calls generalizing done node with
  | nil => rwa [List.append_nil]
  | cons call calls ih =>
    rw [List.append_cons]
    refine ih (counted_step (List.mem_append_right _ (List.mem_singleton_self call)) ?_).1
    exact fun target attesters hget refiner hmem =>
      (h target attesters hget refiner hmem).mono (List.subset_append_left _ _)

/-- In every run from genesis the finalized height never falls. When a call raises it, the
stored block at the new height is refined and lies below the block of the call, and of the
stake active at that moment at least two thirds, rounded up, belong to active refiners who
have signed for exactly that block. -/
theorem finality_safe {config : GenesisConfig} {keyFile : Option (List UInt8)}
    {start : OpolysNode} (h : OpolysNode.new P config keyFile BlockchainStore.empty = .ok start)
    (calls : List Call) (call : Call) :
    let node := Transition.run (OpolysNode.step P) start calls
    let node' := node.step P call
    node.chain.finalizedHeight ≤ node'.chain.finalizedHeight ∧
      (node.chain.finalizedHeight < node'.chain.finalizedHeight →
        Quorum P (calls ++ [call]) call.block.header node node'.chain.finalizedHeight) := by
  intro node node'
  obtain ⟨accounts, hgenesis, -⟩ := OpolysNode.new_fresh h
  obtain ⟨-, -, -, -, -, -, -, -, -, hindex⟩ := OpolysNode.genesisState_chain hgenesis
  have hstart : start.IndexSound P [] := by
    intro target attesters hget
    rw [hindex, ExtTreeMap.getElem?_empty] at hget
    cases hget
  have hnode : node.IndexSound P (calls ++ [call]) := fun target attesters hget refiner hmem =>
    (indexSound_run hstart calls target attesters hget refiner hmem).mono
      (List.subset_append_left _ _)
  have hcall : call ∈ calls ++ [call] := List.mem_append_right _ (List.mem_singleton_self call)
  exact (counted_step hcall hnode).2

/-! ## A block that is finalized -/

/-- Of the heights above the current one the only one with the weight is finalized. -/
theorem finalizedHeight_of_singleton {current height : UInt64} {weight threshold : ℕ}
    (habove : current < height) (hpos : 0 < threshold) (hweight : threshold ≤ weight) :
    finalizedHeightFromAttestationWeights current ((∅ : ExtTreeMap UInt64 ℕ).insert height weight)
      threshold = height := by
  have hmax : max current height = height := if_pos (UInt64.le_of_lt habove)
  have hentry : ((∅ : ExtTreeMap UInt64 ℕ).insert height weight).toList = [(height, weight)] :=
    FiniteMap.toList_singleton _ _
  unfold finalizedHeightFromAttestationWeights
  rw [if_neg hpos.ne', hentry]
  simp only [List.filter_cons, habove, hweight, and_self, decide_true, if_true, List.filter_nil,
    List.map_cons, List.map_nil, List.foldl_cons, List.foldl_nil, hmax]

/-- Where one target is touched, the weight of its attesters decides. -/
theorem finalizedHeight_advanceFinality {node : OpolysNode} {target : UInt64 × Hash}
    {touched : ExtTreeSet (UInt64 × Hash)} {attesters : ExtTreeSet ObjectId}
    {timestamp : UInt64} {threshold : ℕ} (htouched : touched.toList = [target])
    (hindex : node.chain.attestationFinalityRefiners[target]? = some attesters)
    (habove : node.chain.finalizedHeight < target.1) (hpos : 0 < threshold)
    (hweight : threshold ≤ indexedAttestationWeightForRefiners attesters node.refiners timestamp) :
    (advanceFinality threshold timestamp touched node).chain.finalizedHeight = target.1 := by
  have hmax : max node.chain.finalizedHeight target.1 = target.1 :=
    if_pos (UInt64.le_of_lt habove)
  unfold advanceFinality pruneAttestationFinalityIndex
  dsimp only
  rw [htouched, List.foldl_cons, List.foldl_nil, hindex]
  dsimp only
  rw [finalizedHeight_of_singleton habove hpos hweight, hmax]

namespace Reference

/-- The stake of the only refiner is more than two thirds of the active stake. -/
theorem threshold_le_weight {r r' : RefinerInfo} (hactive : r.status = .active)
    (hactive' : r'.status = .active) (hstake : 0 < r.totalStake.toNat)
    (hsame : r'.totalStake = r.totalStake) {attesters : ExtTreeSet ObjectId}
    (hattesters : attesters.toList = [r'.objectId]) (timestamp : UInt64) :
    0 < activeRefinerWeightMilliThreshold (sole r) timestamp ∧
      activeRefinerWeightMilliThreshold (sole r) timestamp ≤
        indexedAttestationWeightForRefiners attesters (sole r') timestamp := by
  have hall : (sole r).allRefiners = [r] := values_sole r
  have hweight : indexedAttestationWeightForRefiners attesters (sole r') timestamp =
      r.totalStake.toNat := by
    have hfits : 0 + r.totalStake.toNat ≤ 2 ^ 128 - 1 := by
      have := r.totalStake.toNat_lt
      omega
    unfold indexedAttestationWeightForRefiners
    rw [hattesters, List.filterMap_cons_some (getRefiner_sole r')]
    simp only [List.filterMap_nil, List.filter_cons, hactive', decide_true, if_true,
      List.filter_nil, List.foldl_cons, List.foldl_nil, RefinerSet.weight_eq_totalStake, hsame]
    exact (min_eq_left hfits).trans (Nat.zero_add _)
  rw [RefinerSet.threshold_eq, hweight, hall]
  unfold RefinerSet.stakeOf
  simp only [List.filter_cons, hactive, decide_true, if_true, List.filter_nil, List.map_cons,
    List.map_nil, List.sum_cons, List.sum_nil]
  omega

/-- A block that includes the vote finalizes the block that is voted for. -/
theorem finalized_of_vote {block : Block} {count : UInt64} {node node' : OpolysNode} {env : Env}
    {included : Block} {st : Stages} (h : Holding block count node)
    (hempty : node.chain.attestationFinalityRefiners = ∅)
    (hzero : node.chain.finalizedHeight = 0)
    (hst : Accepted primitives env included node node' st)
    (hvotes : included.attestations = [vote block]) :
    node'.chain.finalizedHeight = block.header.height := by
  have hattest := hst.attest
  rw [hvotes, List.foldlM_cons, run_bind_eq_ok] at hattest
  obtain ⟨log, attested, hvote, hdone⟩ := hattest
  rw [List.foldlM_nil, run_pure_eq_ok] at hdone
  obtain ⟨hbelow, -, store, stored, hstore, hload, -, -, refiners, -, hlog, hattested⟩ :=
    processAttestation_eq_ok hvote
  obtain ⟨log', attested', hvote', hcounted⟩ := processAttestation_vote h hbelow
  cases hvote.symm.trans hvote'
  obtain ⟨store', hstore', hload'⟩ := h.stored
  obtain rfl := Option.some.inj (hstore.symm.trans hstore')
  obtain rfl := Option.some.inj (hload.symm.trans hload')
  have hattesters : ((∅ : ExtTreeSet ObjectId).insert (account 1)).toList =
      [(refiner .active 961 (MachineInt.saturatingAdd count 1)).objectId] := rfl
  have hactive (count : UInt64) : (refiner .active 961 count).status = .active := rfl
  obtain ⟨hpos, hweight⟩ := threshold_le_weight (hactive count)
    (hactive (MachineInt.saturatingAdd count 1)) (by rw [totalStake_refiner]; decide) rfl
    hattesters included.header.timestamp
  have hindex : attested.chain.attestationFinalityRefiners[(stored.header.height,
      computeBlockHash primitives stored.header)]? =
        some ((∅ : ExtTreeSet ObjectId).insert (account 1)) := by
    rw [hattested]
    change (node.chain.attestationFinalityRefiners.insert _
      ((node.chain.attestationFinalityRefiners.getD _ ∅).insert _))[_]? = _
    rw [hempty, FiniteMap.getElem?_insert']
    exact if_pos rfl
  have hlow : attested.chain.finalizedHeight < stored.header.height := by
    rw [hattested]
    change node.chain.finalizedHeight < _
    rw [hzero, UInt64.lt_iff_toNat_lt, h.height]
    decide
  rw [hst.chain_eq, hst.finalized_eq, ← hdone.1, ← hdone.2, h.refiners]
  rw [← hcounted] at hweight
  exact finalizedHeight_advanceFinality (by rw [hlog]; rfl) hindex hlow hpos hweight

end Reference

open Reference

/-- A vote for the first refined block makes it final, and it is a quorum of the stake. -/
theorem finality_safe_of_reference : ∃ calls call,
    let node := Transition.run (OpolysNode.step primitives) founder calls
    let node' := node.step primitives call
    node.chain.finalizedHeight = 0 ∧ node'.chain.finalizedHeight.toNat = 1921 ∧
      Quorum primitives (calls ++ [call]) call.block.header node node'.chain.finalizedHeight := by
  obtain ⟨node, ⟨calls, hplain, hall, hrun⟩, hrefining⟩ := reaches_refining
  have hlate : 45 ≤ 90 ∧ 90 < 2 ^ 16 := ⟨by omega, by omega⟩
  obtain ⟨st, hst⟩ := OpolysNode.accepted_of_accepts (accepts_refine hrefining hlate)
  obtain ⟨hfinalized, hempty⟩ :=
    hst.finality_of_none (checkBlock_refine hrefining hlate).2.attestations
  obtain ⟨hholding, hheight⟩ := holding_refine hrefining
  generalize refine 90 node = first at hst hfinalized hempty hholding hheight
  obtain ⟨haccepts, hvotes, -, -⟩ := holding_vote hholding ⟨by omega, by omega⟩
  generalize mineWith 90 { attestations := [vote first.block] } (node.step primitives first) = call
    at haccepts hvotes
  obtain ⟨st', hst'⟩ := OpolysNode.accepted_of_accepts haccepts
  have hzero := hfinalized.trans hrefining.finalized
  have hraised := finalized_of_vote hholding (hempty hrefining.attesters) hzero hst' hvotes
  have hsafe := finality_safe new_founder (calls ++ [first]) call
  have hlast : Transition.run (OpolysNode.step primitives) founder (calls ++ [first]) =
      node.step primitives first := by
    rw [Transition.run_append, hrun]
    rfl
  refine ⟨calls ++ [first], call, ?_⟩
  rw [hlast] at hsafe ⊢
  refine ⟨hzero, ?_, hsafe.2 ?_⟩
  · rw [hraised, hholding.height]
  · rw [hzero, hraised, UInt64.lt_iff_toNat_lt, hholding.height]
    decide

end Opolys
