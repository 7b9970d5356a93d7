import Mathlib.Order.Interval.Finset.Nat
import Opolys.Node.LedgerInvariant
import Opolys.Node.Refining

/-!
# Counting attestations

The set keeps a counter for every refiner, and an attestation in a block raises it. Within a
block an attestation counts once, and between blocks nothing remembers it: the index of
attesters is a set and does not notice that one of its members comes again. So an attestation
that two blocks include counts twice.

* `countedOnce_iff` : a run counts every attestation once if and only if its blocks include
  none of them twice.
-/

namespace Opolys

open Effect
open Codec (Borsh)

variable (P : Primitives)

/-! ## What is counted -/

/-- Height and refiner of an attestation. -/
def BlockAttestation.target (attestation : BlockAttestation) : UInt64 × ObjectId :=
  (attestation.height, attestation.refiner)

/-- The attestations in the blocks of a run, with repetitions. -/
def inclusions (calls : List Call) : List (UInt64 × ObjectId) :=
  calls.flatMap fun call => call.block.attestations.map BlockAttestation.target

/-- The attestations that raise the counter of their refiner when they are processed. -/
def raisedFrom (header : BlockHeader) :
    AttestationLog → OpolysNode → List BlockAttestation → List (UInt64 × ObjectId)
  | _, _, [] => []
  | log, node, attestation :: attestations =>
    match processAttestation P header log attestation node with
    | .ok log' node' =>
      (if node.refiners.attestationCount attestation.refiner <
          node'.refiners.attestationCount attestation.refiner then [attestation.target] else []) ++
        raisedFrom header log' node' attestations
    | .error _ _ => []

/-- The attestations of a block that raise the counter of their refiner. -/
def raisedBy (node : OpolysNode) (call : Call) : List (UInt64 × ObjectId) :=
  raisedFrom P call.block.header ⟨[], ∅⟩ node call.block.attestations

/-- The attestations that raise the counter of their refiner in the course of a run. -/
def raisedAlong (start : OpolysNode) (calls : List Call) : List (UInt64 × ObjectId) :=
  (Transition.trace (OpolysNode.step P) (raisedBy P) start calls).flatten

/-- No attestation raises a counter twice, and no counter exceeds the number of different
blocks that its refiner has attested. -/
structure CountedOnce (start : OpolysNode) (calls : List Call) : Prop where
  once : (raisedAlong P start calls).Nodup
  bounded : ∀ id, (Transition.run (OpolysNode.step P) start calls).refiners.attestationCount id ≤
    ((inclusions calls).filter fun target => target.2 = id).dedup.length

/-- How many of the attestations are those of a refiner. -/
def ofRefiner (id : ObjectId) (targets : List (UInt64 × ObjectId)) : ℕ :=
  targets.countP fun target => target.2 = id

/-- The attested heights are neither genesis nor the last height there is. -/
def Attestable (targets : List (UInt64 × ObjectId)) : Prop :=
  ∀ target ∈ targets, 1 ≤ target.1.toNat ∧ target.1.toNat ≤ 2 ^ 64 - 2

/-- Every stored block is filed under its own height. -/
def OpolysNode.Filed (node : OpolysNode) : Prop :=
  ∀ store, node.store = some store → ∀ height block, store.loadBlock height = some block →
    block.header.height = height

variable {P}

theorem RefinerSet.attestationCount_le_max (set : RefinerSet) (id : ObjectId) :
    set.attestationCount id ≤ 2 ^ 64 - 1 := by
  unfold attestationCount
  cases set.getRefiner id with
  | none => exact Nat.zero_le _
  | some r =>
    have := r.consecutiveCorrectAttestations.toNat_lt
    rw [Option.map_some, Option.getD_some]
    omega

theorem ofRefiner_append (id : ObjectId) (targets targets' : List (UInt64 × ObjectId)) :
    ofRefiner id (targets ++ targets') = ofRefiner id targets + ofRefiner id targets' :=
  List.countP_append

theorem Attestable.append {targets targets' : List (UInt64 × ObjectId)}
    (h : Attestable targets) (h' : Attestable targets') : Attestable (targets ++ targets') := by
  intro target htarget
  rcases List.mem_append.mp htarget with htarget | htarget
  · exact h target htarget
  · exact h' target htarget

/-- One refiner cannot attest as many heights as its counter can hold. -/
theorem Attestable.ofRefiner_lt {targets : List (UInt64 × ObjectId)} (h : Attestable targets)
    (hnodup : targets.Nodup) (id : ObjectId) : ofRefiner id targets < 2 ^ 64 - 1 := by
  have hdistinct : ((targets.filter fun target => target.2 = id).map
      fun target => target.1.toNat).Nodup := by
    refine (hnodup.filter _).map_on fun a ha b hb hab => ?_
    obtain ⟨-, ha⟩ := List.mem_filter.mp ha
    obtain ⟨-, hb⟩ := List.mem_filter.mp hb
    exact Prod.ext (UInt64.toNat_inj.mp hab)
      ((of_decide_eq_true ha).trans (of_decide_eq_true hb).symm)
  have hsubset : ((targets.filter fun target => target.2 = id).map
      fun target : UInt64 × ObjectId => target.1.toNat).toFinset ⊆ Finset.Icc 1 (2 ^ 64 - 2) := by
    intro height hheight
    rw [List.mem_toFinset, List.mem_map] at hheight
    obtain ⟨target, htarget, rfl⟩ := hheight
    exact Finset.mem_Icc.mpr (h target (List.mem_of_mem_filter htarget))
  have hcard := Finset.card_le_card hsubset
  rw [List.toFinset_card_of_nodup hdistinct, List.length_map, Nat.card_Icc] at hcard
  unfold ofRefiner
  rw [List.countP_eq_length_filter]
  omega

/-! ## The attestations of one block -/

variable {header : BlockHeader} {log log' : AttestationLog} {node node' : OpolysNode}

theorem raisedFrom_cons {attestation : BlockAttestation} (attestations : List BlockAttestation)
    (h : processAttestation P header log attestation node = .ok log' node') :
    raisedFrom P header log node (attestation :: attestations) =
      (if node.refiners.attestationCount attestation.refiner <
          node'.refiners.attestationCount attestation.refiner then [attestation.target] else []) ++
        raisedFrom P header log' node' attestations := by
  rw [raisedFrom, h]

/-- One attestation raises the counter of its refiner, up to the greatest count. -/
theorem attestationCount_processAttestation {attestation : BlockAttestation}
    (h : processAttestation P header log attestation node = .ok log' node') (id : ObjectId) :
    node'.refiners.attestationCount id = if attestation.refiner = id then
      min (node.refiners.attestationCount attestation.refiner + 1) (2 ^ 64 - 1)
      else node.refiners.attestationCount id := by
  obtain ⟨-, -, store, attested, -, -, -, -, refiners, hrecord, -, rfl⟩ :=
    processAttestation_eq_ok h
  exact RefinerSet.attestationCount_recordCorrectAttestation hrecord id

theorem raisedFrom_sublist (attestations : List BlockAttestation)
    (h : attestations.foldlM (processAttestation P header) log node = .ok log' node') :
    (raisedFrom P header log node attestations).Sublist
      (attestations.map BlockAttestation.target) := by
  induction attestations generalizing log node with
  | nil => exact List.Sublist.refl _
  | cons attestation attestations ih =>
    rw [List.foldlM_cons, run_bind_eq_ok] at h
    obtain ⟨log1, node1, hone, hrest⟩ := h
    rw [raisedFrom_cons attestations hone, List.map_cons]
    split
    · exact (ih hrest).cons_cons attestation.target
    · exact (ih hrest).cons attestation.target

/-- The counters are raised by the attestations that raise them, and by no others. -/
theorem attestationCount_foldlM (attestations : List BlockAttestation)
    (h : attestations.foldlM (processAttestation P header) log node = .ok log' node')
    (id : ObjectId) : node'.refiners.attestationCount id =
      node.refiners.attestationCount id +
        ofRefiner id (raisedFrom P header log node attestations) := by
  induction attestations generalizing log node with
  | nil =>
    obtain ⟨-, rfl⟩ := run_pure_eq_ok.mp h
    rfl
  | cons attestation attestations ih =>
    rw [List.foldlM_cons, run_bind_eq_ok] at h
    obtain ⟨log1, node1, hone, hrest⟩ := h
    have hmax := node.refiners.attestationCount_le_max attestation.refiner
    have hraised := attestationCount_processAttestation hone attestation.refiner
    have hcount := attestationCount_processAttestation hone id
    rw [if_pos rfl] at hraised
    rw [raisedFrom_cons attestations hone, ofRefiner_append, ih hrest, hcount]
    by_cases hid : attestation.refiner = id
    · subst hid
      rw [if_pos rfl]
      split
      · have hown : ofRefiner attestation.refiner [attestation.target] = 1 := by
          simp [ofRefiner, BlockAttestation.target]
        rw [hown]
        omega
      · change _ = _ + (0 + _)
        omega
    · have hother : ofRefiner id [attestation.target] = 0 := by
        simp [ofRefiner, BlockAttestation.target, hid]
      rw [if_neg hid]
      split
      · rw [hother, Nat.zero_add]
      · change _ = _ + (0 + _)
        rw [Nat.zero_add]

/-- Below the greatest count every attestation raises its counter. -/
theorem raisedFrom_eq (attestations : List BlockAttestation)
    (h : attestations.foldlM (processAttestation P header) log node = .ok log' node')
    (hlt : ∀ id, node'.refiners.attestationCount id < 2 ^ 64 - 1) :
    raisedFrom P header log node attestations = attestations.map BlockAttestation.target := by
  induction attestations generalizing log node with
  | nil => rfl
  | cons attestation attestations ih =>
    rw [List.foldlM_cons, run_bind_eq_ok] at h
    obtain ⟨log1, node1, hone, hrest⟩ := h
    have hraised := attestationCount_processAttestation hone attestation.refiner
    have hlast := attestationCount_foldlM attestations hrest attestation.refiner
    have hbelow := hlt attestation.refiner
    rw [if_pos rfl] at hraised
    rw [raisedFrom_cons attestations hone, if_pos (by omega), ih hrest]
    rfl

theorem attestable_foldlM (attestations : List BlockAttestation) (hfiled : node.Filed)
    (h : attestations.foldlM (processAttestation P header) log node = .ok log' node') :
    Attestable (attestations.map BlockAttestation.target) := by
  induction attestations generalizing log node with
  | nil => nofun
  | cons attestation attestations ih =>
    rw [List.foldlM_cons, run_bind_eq_ok] at h
    obtain ⟨log1, node1, hone, hrest⟩ := h
    obtain ⟨hheight, -, store, attested, hstore, hload, hrefined, -, refiners, -, -, rfl⟩ :=
      processAttestation_eq_ok hone
    have hown := hfiled store hstore _ _ hload
    have hpos := height_pos_of_kind (of_decide_eq_true hrefined) nofun
    rw [hown, gt_iff_lt, UInt64.lt_iff_toNat_lt, UInt64.toNat_zero] at hpos
    rw [UInt64.lt_iff_toNat_lt] at hheight
    have := header.height.toNat_lt
    intro target htarget
    rw [List.map_cons] at htarget
    rcases List.mem_cons.mp htarget with rfl | htarget
    · change 1 ≤ attestation.height.toNat ∧ attestation.height.toNat ≤ 2 ^ 64 - 2
      omega
    · refine ih ?_ hrest target htarget
      exact hfiled

/-! ## One block -/

/-- Nothing but an attestation raises a counter. -/
theorem attestationCount_keptByFunds (id : ObjectId) (bound : ℕ) :
    KeptByFunds fun ledger => ledger.refiners.attestationCount id ≤ bound where
  credit _ _ _ _ h _ := h
  perform _ h hinternal _ hattests :=
    ((RefinerSet.derives_perform_unattested RefinerSet.unmoved_sameCount _ hinternal
      hattests).attestationCount_le id).trans h

theorem attestationCount_keptByTransactions (id : ObjectId) (bound : ℕ) :
    KeptByTransactions P fun ledger => ledger.refiners.attestationCount id ≤ bound := by
  intro ledger tx context charged ledger' h hrun
  have hmoves := TransactionDispatcher.movesStake_of_dispatch hrun
  unfold TransactionDispatcher.MovesStake at hmoves
  split at hmoves
  · rw [hmoves]
    exact h
  · exact (RefinerSet.attestationCount_bond hmoves id).trans h
  · exact ((RefinerSet.derives_unbondAmount_sameCount hmoves).attestationCount_le id).trans h

theorem RefinerSet.derives_ranked (set : RefinerSet) (height : BlockHeight)
    (totalIssued : FlakeAmount) : Derives SameCount set (set.ranked height totalIssued) := by
  have hactivated := derives_activateMaturedRefiners unmoved_sameCount set height
  unfold ranked
  split
  · exact hactivated.trans unmoved_sameCount (derives_rerankRefiners unmoved_sameCount _ _)
  · exact hactivated

namespace Accepted

variable {env : Env} {block : Block} {st : Stages}

/-- After a block no counter is above what it was before, and what the block raised it by. -/
theorem attestationCount_le (h : Accepted P env block node node' st) (id : ObjectId) :
    node'.refiners.attestationCount id ≤ node.refiners.attestationCount id +
      ofRefiner id (raisedFrom P block.header ⟨[], ∅⟩ node block.attestations) := by
  have hattested := attestationCount_foldlM block.attestations h.attest id
  have hfinalized : st.finalized.ledger.refiners.attestationCount id ≤
      st.attested.refiners.attestationCount id := by
    rw [h.finalized_frame]
    exact le_rfl
  have hpaid := (attestationCount_keptByFunds id _).paid
    (attestationCount_keptByTransactions id _) h hfinalized
  have hranked := (st.paid.refiners.derives_ranked block.header.height
    node'.chain.totalIssued).attestationCount_le id
  have hrefiners : node'.refiners =
      st.paid.refiners.ranked block.header.height node'.chain.totalIssued := by
    rw [h.refiners_eq, h.paid_eq, h.settled_eq]
  rw [← hrefiners] at hranked
  rw [← hattested]
  exact hranked.trans hpaid

theorem filed (h : Accepted P env block node node' st) (hfiled : node.Filed) : node'.Filed := by
  intro store' hstore'
  cases hstore : node.store with
  | none =>
    rw [h.store_eq_none hstore] at hstore'
    cases hstore'
  | some store =>
    rcases h.store_cases hstore with hsame | ⟨-, saved, hstore, hsaved⟩
    · obtain rfl := Option.some.inj (hsame.symm.trans hstore')
      exact hfiled store hstore
    · obtain rfl := Option.some.inj (hstore.symm.trans hstore')
      intro height stored hload
      unfold BlockchainStore.loadBlock at hload
      rw [hsaved.blocks_eq, FiniteMap.getElem?_insert'] at hload
      split at hload
      · rename_i hheight
        cases hload
        exact hheight
      · exact hfiled store ‹_› height stored hload

end Accepted

/-! ## A run -/

variable {start : OpolysNode} {past : List (UInt64 × ObjectId)}

theorem raisedAlong_cons (node : OpolysNode) (call : Call) (calls : List Call) :
    raisedAlong P node (call :: calls) =
      raisedBy P node call ++ raisedAlong P (node.step P call) calls := rfl

theorem inclusions_cons (call : Call) (calls : List Call) :
    inclusions (call :: calls) =
      call.block.attestations.map BlockAttestation.target ++ inclusions calls := rfl

/-- What is counted for a refiner has been raised in the past. -/
def OpolysNode.CountedWithin (past : List (UInt64 × ObjectId)) (node : OpolysNode) : Prop :=
  ∀ id, node.refiners.attestationCount id ≤ ofRefiner id past

theorem OpolysNode.CountedWithin.step (h : node.CountedWithin past) {call : Call}
    (haccepts : node.accepts P call = true) :
    (node.step P call).CountedWithin (past ++ raisedBy P node call) := by
  intro id
  obtain ⟨st, hst⟩ := accepted_of_accepts haccepts
  rw [ofRefiner_append]
  exact (hst.attestationCount_le id).trans (Nat.add_le_add_right (h id) _)

theorem OpolysNode.CountedWithin.run (h : node.CountedWithin past) {calls : List Call}
    (hall : Transition.EveryStep (OpolysNode.step P)
      (fun node call => node.accepts P call = true) node calls) :
    (Transition.run (OpolysNode.step P) node calls).CountedWithin
      (past ++ raisedAlong P node calls) := by
  induction calls generalizing node past with
  | nil =>
    rw [raisedAlong, Transition.trace, List.flatten_nil, List.append_nil]
    exact h
  | cons call calls ih =>
    rw [raisedAlong_cons, ← List.append_assoc]
    exact ih (h.step hall.1) hall.2

theorem raisedAlong_sublist {calls : List Call}
    (hall : Transition.EveryStep (OpolysNode.step P)
      (fun node call => node.accepts P call = true) node calls) :
    (raisedAlong P node calls).Sublist (inclusions calls) := by
  induction calls generalizing node with
  | nil => exact List.Sublist.refl _
  | cons call calls ih =>
    obtain ⟨st, hst⟩ := OpolysNode.accepted_of_accepts hall.1
    rw [raisedAlong_cons, inclusions_cons]
    exact (raisedFrom_sublist call.block.attestations hst.attest).append (ih hall.2)

/-- Where no attestation raises a counter twice, no counter reaches its end, and so every
attestation that is included raises one. -/
theorem raisedAlong_eq {calls : List Call} (hfiled : node.Filed)
    (hcount : node.CountedWithin past) (hpast : Attestable past)
    (hall : Transition.EveryStep (OpolysNode.step P)
      (fun node call => node.accepts P call = true) node calls)
    (hnodup : (past ++ raisedAlong P node calls).Nodup) :
    raisedAlong P node calls = inclusions calls := by
  induction calls generalizing node past with
  | nil => rfl
  | cons call calls ih =>
    obtain ⟨st, hst⟩ := OpolysNode.accepted_of_accepts hall.1
    have hattestable : Attestable (raisedBy P node call) := fun target htarget =>
      attestable_foldlM call.block.attestations hfiled hst.attest target
        ((raisedFrom_sublist call.block.attestations hst.attest).subset htarget)
    rw [raisedAlong_cons, ← List.append_assoc] at hnodup
    have hnow := hpast.append hattestable
    have hbelow (id : ObjectId) : st.attested.refiners.attestationCount id < 2 ^ 64 - 1 := by
      have hlt := hnow.ofRefiner_lt hnodup.of_append_left id
      have hle := hcount id
      rw [ofRefiner_append] at hlt
      rw [attestationCount_foldlM call.block.attestations hst.attest id]
      exact (Nat.add_le_add_right hle _).trans_lt hlt
    have hraised := raisedFrom_eq call.block.attestations hst.attest hbelow
    rw [raisedAlong_cons, inclusions_cons, ih (hst.filed hfiled) (hcount.step hall.1) hnow hall.2
      hnodup]
    exact congrArg (fun targets => targets ++ inclusions calls) hraised

/-! ## From genesis -/

theorem filed_new {config : GenesisConfig} {keyFile : Option (List UInt8)}
    (hnew : OpolysNode.new P config keyFile BlockchainStore.empty = .ok start) : start.Filed := by
  obtain ⟨-, -, -, -, hstore, -, -⟩ := OpolysNode.new_fresh hnew
  intro store hsome height block hload
  obtain rfl := Option.some.inj (hstore.symm.trans hsome)
  cases hload

theorem countedWithin_new {config : GenesisConfig} {keyFile : Option (List UInt8)}
    (hnew : OpolysNode.new P config keyFile BlockchainStore.empty = .ok start) :
    start.CountedWithin [] := by
  obtain ⟨accounts, hgenesis, -⟩ := OpolysNode.new_fresh hnew
  intro id
  rw [(OpolysNode.genesisState_chain hgenesis).1]
  exact Nat.zero_le _

theorem countedOnce_of_nodup {calls : List Call} (hcount : start.CountedWithin [])
    (hall : Transition.EveryStep (OpolysNode.step P)
      (fun node call => node.accepts P call = true) start calls)
    (hnodup : (inclusions calls).Nodup) : CountedOnce P start calls := by
  have hsub := raisedAlong_sublist hall
  refine ⟨hnodup.sublist hsub, fun id => ?_⟩
  rw [(hnodup.filter _).dedup]
  refine (hcount.run hall id).trans ?_
  rw [List.nil_append, ← List.countP_eq_length_filter]
  exact hsub.countP_le

theorem nodup_of_countedOnce {calls : List Call} (hfiled : start.Filed)
    (hcount : start.CountedWithin [])
    (hall : Transition.EveryStep (OpolysNode.step P)
      (fun node call => node.accepts P call = true) start calls)
    (h : CountedOnce P start calls) : (inclusions calls).Nodup := by
  rw [← raisedAlong_eq hfiled hcount nofun hall h.once]
  exact h.once

/-- In a run of accepted blocks from genesis every attestation counts once if and only if no
attestation is included twice. -/
theorem countedOnce_iff (P : Primitives) (config : GenesisConfig) (keyFile : Option (List UInt8))
    (start : OpolysNode) (calls : List Call)
    (hnew : OpolysNode.new P config keyFile BlockchainStore.empty = .ok start)
    (hall : Transition.EveryStep (OpolysNode.step P)
      (fun node call => node.accepts P call = true) start calls) :
    CountedOnce P start calls ↔ (inclusions calls).Nodup := by
  have hcount := countedWithin_new hnew
  exact ⟨nodup_of_countedOnce (filed_new hnew) hcount hall, countedOnce_of_nodup hcount hall⟩

/-! ## A chain that includes an attestation twice -/

namespace Reference

/-- The attestation of a block by the refiner of the chain. -/
def vote (block : Block) : BlockAttestation where
  refiner := account 1
  refinerPubkey := (publicKey 1).bytes
  height := block.header.height
  blockHash := computeBlockHash primitives block.header
  signature := (primitives.sign (seed 1) (blockAttestationSigningPayload block.header.height
    (computeBlockHash primitives block.header))).bytes

theorem smallBody_vote (block : Block) : SmallBody { attestations := [vote block] } := by
  have hkey : (vote block).refinerPubkey.length = 32 := Codec.FixedBytes.length_bytes _
  have hsignature : (vote block).signature.length = 64 := Codec.FixedBytes.length_bytes _
  have hfits (bytes : List UInt8) (h : bytes.length < 2 ^ 32) : Borsh.fits bytes = true :=
    Borsh.fits_list.mpr ⟨h, fun _ _ => rfl⟩
  have hbytes (bytes : List UInt8) : (Borsh.encode bytes).length = 4 + bytes.length := by
    have hsome := length_encode_some_bytes bytes
    change (Borsh.encode bytes).length + 1 = _ at hsome
    omega
  generalize vote block = attestation at hkey hsignature ⊢
  have hone : [attestation].length = 1 := rfl
  refine ⟨small_nil, rfl, ?_, ?_, ?_⟩
  · refine Borsh.fits_list.mpr ⟨by rw [hone]; omega, fun a ha => ?_⟩
    rw [List.mem_singleton.mp ha]
    change (true && (Borsh.fits attestation.refinerPubkey && (true && (true &&
      Borsh.fits attestation.signature)))) = true
    rw [hfits _ (by omega), hfits _ (by omega)]
    rfl
  · have hitem : Borsh.encode [attestation] =
        Codec.leBytes 4 1 ++ (Borsh.encode attestation ++ []) := rfl
    have hencode : (Borsh.encode attestation).length = 32 + (36 + (8 + (32 + 68))) := by
      change (Borsh.encode (attestation.refiner.hash, attestation.refinerPubkey,
        attestation.height, attestation.blockHash, attestation.signature)).length = _
      simp only [length_encode_pair, length_encode_uint64, length_encode_fixed, hbytes, hkey,
        hsignature]
    rw [hitem, List.append_nil, List.length_append, Codec.length_leBytes, hencode]
    omega
  · rw [hone]
    omega

variable {block : Block} {count : UInt64} {node : OpolysNode}

/-- The vote is genuine, and counts. -/
theorem processAttestation_vote (h : Holding block count node) {header : BlockHeader}
    (hheight : block.header.height < header.height) :
    ∃ log node', processAttestation primitives header ⟨[], ∅⟩ (vote block) node = .ok log node' ∧
      node'.refiners = sole (refiner .active 961 (MachineInt.saturatingAdd count 1)) := by
  obtain ⟨store, hstore, hload⟩ := h.stored
  have hget : node.refiners.getRefiner (vote block).refiner =
      some (refiner .active 961 count) := by
    rw [h.refiners]
    exact getRefiner_sole _
  have hsigned : verifyEd25519 primitives (vote block).refinerPubkey
      (blockAttestationSigningPayload block.header.height
        (computeBlockHash primitives block.header))
      (vote block).signature = true :=
    verifyEd25519_eq_true.mpr ⟨publicKey 1, _, rfl, rfl, rfl, verify_sign _ _⟩
  have hlength : (vote block).signature.length = 64 := Codec.FixedBytes.length_bytes _
  have hverify : verifyBlockAttestationAgainstRefiners primitives (vote block)
      (computeBlockHash primitives block.header) node.refiners = .ok () := by
    have hkey : Codec.FixedBytes.ofList? 32 (vote block).refinerPubkey = some (publicKey 1) :=
      Codec.FixedBytes.ofList?_bytes _
    unfold verifyBlockAttestationAgainstRefiners
    rw [hkey]
    dsimp only
    rw [check_bind_eq_ok, check_bind_eq_ok, check_bind_eq_ok]
    refine ⟨hlength, rfl, rfl, ?_⟩
    rw [hget]
    dsimp only
    rw [check_bind_eq_ok, check_eq_ok]
    exact ⟨rfl, hsigned⟩
  have hrecord : node.refiners.recordCorrectAttestation (vote block).refiner =
      .ok (sole (refiner .active 961 (MachineInt.saturatingAdd count 1))) := by
    have hid : (refiner .active 961 (MachineInt.saturatingAdd count 1)).objectId =
      (refiner .active 961 count).objectId := rfl
    have hput := put_sole _ hid
    unfold RefinerSet.recordCorrectAttestation
    rw [hget]
    dsimp only
    rw [check_bind_eq_ok, h.refiners]
    refine ⟨rfl, congrArg Except.ok ?_⟩
    exact congrArg (fun records => RefinerSet.mk records [account 1] []) hput
  unfold processAttestation
  simp only [run_ensure_bind_eq_ok, run_get_bind, run_require_bind_eq_ok, run_ofExcept_bind_eq_ok,
    run_modify_bind, run_pure_eq_ok]
  exact ⟨_, _, ⟨hheight, List.not_mem_nil, store, hstore, block, hload, h.refined, (), hverify, _,
    hrecord, rfl, rfl⟩, rfl⟩

/-- A mined block that includes the vote is accepted, and the counter is one higher. -/
theorem holding_vote (h : Holding block count node)
    (hheight : 1921 ≤ node.chain.currentHeight.toNat ∧ node.chain.currentHeight.toNat < 2 ^ 32) :
    let call := mineWith 90 { attestations := [vote block] } node
    node.accepts primitives call = true ∧ call.block.attestations = [vote block] ∧
      Holding block (MachineInt.saturatingAdd count 1) (node.step primitives call) ∧
      (node.step primitives call).chain.currentHeight.toNat =
        node.chain.currentHeight.toNat + 1 := by
  intro call
  have hexpected := h.expectedDifficulty (Or.inr (Or.inr rfl)) (by omega)
  have hunpaid : Unpaid node :=
    ⟨by rw [hexpected, h.baseReward]; decide, by rw [hexpected]; decide⟩
  have hmined : MinedBlock 90 { attestations := [vote block] } node call.block :=
    (checkBlock_mineWith h.toReady hunpaid (smallBody_vote block) ⟨by omega, by omega⟩
      (by omega)).2
  have hone : (1 : UInt64).toNat = 1 := rfl
  have hnext : (node.chain.currentHeight + 1).toNat = node.chain.currentHeight.toNat + 1 := by
    rw [MachineInt.toNat_add_of_lt (by omega), hone]
  have hbelow : block.header.height < call.block.header.height := by
    rw [hmined.height, UInt64.lt_iff_toNat_lt, hnext, h.height]
    omega
  obtain ⟨log, attested, hvote, hcounted⟩ := processAttestation_vote h hbelow
  have hloop : call.block.attestations.foldlM (processAttestation primitives call.block.header)
      ⟨[], ∅⟩ node = .ok log attested := by
    rw [hmined.attestations, List.foldlM_cons, run_bind_eq_ok]
    exact ⟨log, attested, hvote, rfl⟩
  obtain ⟨finalized, hattest⟩ : ∃ finalized,
      processAttestations primitives call.block node = .ok () finalized := by
    unfold processAttestations
    simp only [run_get_bind, run_bind_eq_ok]
    exact ⟨_, log, attested, hloop, rfl⟩
  obtain ⟨haccepts, st, hst, hreward⟩ := accepted_mineWith h.toReady hunpaid (smallBody_vote block)
    ⟨by omega, by omega⟩ (by omega) hattest
  have hattested : st.attested = attested := by
    have hsame := hst.attest
    rw [hloop] at hsame
    cases hsame
    rfl
  change node.accepts primitives call = true at haccepts
  change Accepted primitives call.env call.block node (node.step primitives call) st at hst
  clear_value call
  rw [← hattested] at hcounted
  obtain ⟨hready, hidled⟩ := empty_step h.toReady hst (by omega) hmined.timestamp
    (Block.barren_of_empty hmined.transactions) hmined.evidence hreward (by rw [hcounted]; rfl)
  refine ⟨haccepts, hmined.attestations, { hready with
    difficulty := hidled.difficulty.trans hexpected
    baseReward := hidled.baseReward.trans h.baseReward
    issued := hidled.issued.trans h.issued
    accounts := hidled.accounts.trans h.accounts
    refiners := ?_
    refined := h.refined
    height := h.height
    stored := ?_ }, ?_⟩
  · rw [hidled.refiners, hcounted, ranked_active]
  · obtain ⟨store, hstore, hload⟩ := h.stored
    rcases hst.store_cases hstore with hsame | ⟨-, store', hstore', hsaved⟩
    · exact ⟨store, hsame, hload⟩
    · refine ⟨store', hstore', ?_⟩
      have hother : ¬call.block.header.height = block.header.height := by
        rw [hmined.height, ← UInt64.toNat_inj, hnext, h.height]
        omega
      unfold BlockchainStore.loadBlock at hload ⊢
      rw [hsaved.blocks_eq, FiniteMap.getElem?_insert', if_neg hother]
      exact hload
  · rw [hidled.height, hnext]

/-- On the chain two blocks include the same vote. -/
theorem exists_repetition : ∃ calls target,
    Transition.EveryStep (OpolysNode.step primitives)
      (fun node call => node.accepts primitives call = true) founder calls ∧
      inclusions calls = [target, target] ∧
      (Transition.run (OpolysNode.step primitives) founder calls).refiners.attestationCount
        target.2 = 2 := by
  obtain ⟨node, ⟨calls, hplain, hall, hrun⟩, hrefining⟩ := reaches_refining
  have hlate : 45 ≤ 90 ∧ 90 < 2 ^ 16 := ⟨by omega, by omega⟩
  have hrefine := accepts_refine hrefining hlate
  have hbare := (checkBlock_refine hrefining hlate).2.attestations
  obtain ⟨hholding, hheight⟩ := holding_refine hrefining
  generalize refine 90 node = call at hrefine hbare hholding hheight
  obtain ⟨haccepts1, hvotes1, hholding1, hheight1⟩ := holding_vote hholding ⟨by omega, by omega⟩
  generalize mineWith 90 { attestations := [vote call.block] } (node.step primitives call) = call1
    at haccepts1 hvotes1 hholding1 hheight1
  obtain ⟨haccepts2, hvotes2, hholding2, -⟩ := holding_vote hholding1 ⟨by omega, by omega⟩
  generalize mineWith 90 { attestations := [vote call.block] }
    ((node.step primitives call).step primitives call1) = call2 at haccepts2 hvotes2 hholding2
  have hnone : inclusions calls = [] := by
    refine List.flatMap_eq_nil_iff.mpr fun c hc => ?_
    rw [(hplain c hc).attestations]
    rfl
  refine ⟨calls ++ [call, call1, call2], (vote call.block).target, ?_, ?_, ?_⟩
  · refine Transition.everyStep_append.mpr ⟨hall, ?_⟩
    rw [hrun]
    exact ⟨hrefine, haccepts1, haccepts2, trivial⟩
  · unfold inclusions at hnone ⊢
    rw [List.flatMap_append, hnone]
    simp only [List.flatMap_cons, List.flatMap_nil, hbare, hvotes1, hvotes2]
    rfl
  · rw [Transition.run_append, hrun]
    change (((node.step primitives call).step primitives call1).step primitives
      call2).refiners.attestationCount (account 1) = 2
    rw [hholding2.refiners]
    exact RefinerSet.attestationCount_of_some (getRefiner_sole _)

end Reference

open Reference

theorem countedOnce_iff_of_reference : ∃ calls, ∃ target,
    inclusions calls = [target, target] ∧
      (CountedOnce primitives founder calls ↔ (inclusions calls).Nodup) := by
  obtain ⟨calls, target, hall, htwice, -⟩ := exists_repetition
  exact ⟨calls, target, htwice, countedOnce_iff primitives bondConfig (some (seed 1).bytes) founder
    calls new_founder hall⟩

/-- One block is attested, and counts twice. -/
theorem attested_twice : ∃ calls target,
    OpolysNode.new primitives bondConfig (some (seed 1).bytes) BlockchainStore.empty =
        .ok founder ∧
      Transition.EveryStep (OpolysNode.step primitives)
        (fun node call => node.accepts primitives call = true) founder calls ∧
      inclusions calls = [target, target] ∧
      (Transition.run (OpolysNode.step primitives) founder calls).refiners.attestationCount
        target.2 = 2 ∧
      ¬CountedOnce primitives founder calls := by
  obtain ⟨calls, target, hall, htwice, hcount⟩ := exists_repetition
  refine ⟨calls, target, new_founder, hall, htwice, hcount, fun h => ?_⟩
  have hle := h.bounded target.2
  have hone : ([target, target].filter fun t => t.2 = target.2).dedup.length = 1 := by
    simp
  rw [hcount, htwice, hone] at hle
  omega

end Opolys
