import Opolys.Node.Unbonding

/-!
# The archive of a run

The database has one block and one receipt for every height at which a block was accepted and
written. A write can fail, and a node that starts again after that may accept another block of
the same height, which replaces the first. The archive of a run says for every height which
application of a block its entries come from.
-/

namespace Opolys

variable {P : Primitives} {config : GenesisConfig}

/-- The entries that a block and its receipt are written to. -/
structure BlockchainStore.Filed (P : Primitives) (block : Block) (st : Stages)
    (store store' : BlockchainStore) : Prop where
  blocks_eq : store'.blocks = store.blocks.insert block.header.height block
  receipts_eq : store'.receipts =
    store.receipts.insert block.header.height (st.receipt P block.header)

/-- What a node has on disk, by height. It starts on a fresh database. A block that is
accepted is written with its receipt or not at all, one that is rejected is not written, and a
node that starts again finds what is there. -/
inductive Archive (P : Primitives) (config : GenesisConfig) :
    OpolysNode → (UInt64 → Option AppliedBlock) → Prop where
  | start {keyFile : Option (List UInt8)} {node : OpolysNode}
      (hnew : OpolysNode.new P config keyFile BlockchainStore.empty = .ok node) :
      Archive P config node fun _ => none
  | stored {node : OpolysNode} {written : UInt64 → Option AppliedBlock} {call : Call}
      {st : Stages} {store store' : BlockchainStore} (h : Archive P config node written)
      (hst : Accepted P call.env call.block node (node.step P call) st)
      (hstore : node.store = some store) (hstore' : (node.step P call).store = some store')
      (hfiled : store.Filed P call.block st store') :
      Archive P config (node.step P call) (Function.update written call.block.header.height
        (some ⟨call.block, node, st, node.step P call⟩))
  | unstored {node : OpolysNode} {written : UInt64 → Option AppliedBlock} {call : Call}
      (h : Archive P config node written) (hstore : (node.step P call).store = node.store) :
      Archive P config (node.step P call) written
  | restart {node node' : OpolysNode} {written : UInt64 → Option AppliedBlock}
      {keyFile : Option (List UInt8)} {store : BlockchainStore} (h : Archive P config node written)
      (hstore : node.store = some store)
      (hnew : OpolysNode.new P config keyFile store = .ok node') :
      Archive P config node' written

/-- An accepted block is written with its receipt, or the database stays as it is. -/
theorem Accepted.filed_or_kept {env : Env} {block : Block} {node node' : OpolysNode} {st : Stages}
    (h : Accepted P env block node node' st) {store : BlockchainStore}
    (hstore : node.store = some store) :
    node'.store = some store ∨
      ∃ store', node'.store = some store' ∧ store.Filed P block st store' := by
  have hsame : (recordBlock st.stateRoot (st.receipt P block.header)
      (rankRefiners st.paid)).store = some store := by
    change (rankRefiners st.paid).store = some store
    rw [rankRefiners_eq, h.paid_eq, h.settled_eq, h.executed_eq, h.opened_eq, h.finalized_frame]
    exact hstore
  rw [h.node_eq]
  change (persist P env block _ _).store = some store ∨
    ∃ store', (persist P env block _ _).store = some store' ∧ _
  generalize recordBlock st.stateRoot (st.receipt P block.header) (rankRefiners st.paid) = last
    at hsame
  unfold persist
  rw [hsame]
  dsimp only
  cases hsave : persistState P env.writeOk block (st.receipt P block.header) last store with
  | error message => exact Or.inl hsame
  | ok store' =>
    refine Or.inr ⟨store', rfl, ?_⟩
    unfold persistState BlockchainStore.saveAppliedBlockAtomic BlockchainStore.serializable at hsave
    iterate 7 rw [Effect.check_bind_eq_ok] at hsave
    obtain ⟨-, -, -, -, -, -, -, hsave⟩ := hsave
    cases hsave
    exact ⟨rfl, rfl⟩

namespace Archive

variable {node : OpolysNode} {written : UInt64 → Option AppliedBlock}

/-- Every run of calls, accepted or rejected, and of restarts has its archive. -/
theorem exists_of_run {keyFile : Option (List UInt8)} {start : OpolysNode}
    (hnew : OpolysNode.new P config keyFile BlockchainStore.empty = .ok start)
    (events : List OpolysNode.Event) :
    ∃ written, Archive P config (Transition.run (OpolysNode.next P config) start events)
      written := by
  have hcall {node : OpolysNode} {written : UInt64 → Option AppliedBlock}
      (h : Archive P config node written) (call : Call) :
      ∃ written, Archive P config (node.step P call) written := by
    cases haccepts : node.accepts P call with
    | false =>
      obtain ⟨message, hrun⟩ := OpolysNode.rejects_eq haccepts
      have hrejected := (applyBlock_rejects call.env call.block node).error hrun
      exact ⟨written, .unstored h (tip_of_rejected hrejected).1⟩
    | true =>
      obtain ⟨st, hst⟩ := OpolysNode.accepted_of_accepts haccepts
      cases hstore : node.store with
      | none => exact ⟨written, .unstored h ((hst.store_eq_none hstore).trans hstore.symm)⟩
      | some store =>
        rcases hst.filed_or_kept hstore with hsame | ⟨store', hstore', hfiled⟩
        · exact ⟨written, .unstored h (hsame.trans hstore.symm)⟩
        · exact ⟨_, .stored h hst hstore hstore' hfiled⟩
  have hstep (node : OpolysNode) (event : OpolysNode.Event)
      (h : ∃ written, Archive P config node written) (_ : True) :
      ∃ written, Archive P config (node.next P config event) written := by
    obtain ⟨written, h⟩ := h
    fun_cases OpolysNode.next P config node event with
    | case1 call => exact hcall h call
    | case2 keyFile hnone => exact ⟨written, h⟩
    | case3 keyFile store hstore =>
      cases hnew : OpolysNode.new P config keyFile store with
      | error message => exact ⟨written, h⟩
      | ok node' => exact ⟨written, .restart h hstore hnew⟩
  have hall : Transition.EveryStep (OpolysNode.next P config) (fun _ _ => True) start events := by
    clear hnew
    induction events generalizing start with
    | nil => trivial
    | cons event events ih => exact ⟨trivial, ih⟩
  exact Transition.invariant_run hstep ⟨fun _ => none, .start hnew⟩ hall

/-- What the archive says of a height is an accepted block of that height. -/
theorem accepted (h : Archive P config node written) {height : UInt64} {applied : AppliedBlock}
    (hwritten : written height = some applied) :
    applied.block.header.height = height ∧ ∃ env,
      Accepted P env applied.block applied.before applied.after applied.stages := by
  induction h generalizing height applied with
  | start hnew => cases hwritten
  | @stored node written call st store store' h hst hstore hstore' hfiled ih =>
    rw [Function.update_apply] at hwritten
    split at hwritten
    · rename_i heq
      cases hwritten
      exact ⟨heq.symm, call.env, hst⟩
    · exact ih hwritten
  | unstored h hstore ih => exact ih hwritten
  | restart h hstore hnew ih => exact ih hwritten

/-- The database has the blocks of the archive and their receipts, and nothing else. -/
theorem load_eq (h : Archive P config node written) {store : BlockchainStore}
    (hstore : node.store = some store) (height : UInt64) :
    store.loadBlock height = (written height).map AppliedBlock.block ∧
      store.loadBlockReceipt height = (written height).map fun applied =>
        applied.stages.receipt P applied.block.header := by
  unfold BlockchainStore.loadBlock BlockchainStore.loadBlockReceipt
  induction h generalizing store with
  | start hnew =>
    obtain rfl := Option.some.inj ((OpolysNode.new_eq_ok hnew).1.symm.trans hstore)
    exact ⟨Std.ExtTreeMap.getElem?_empty, Std.ExtTreeMap.getElem?_empty⟩
  | @stored node written call st before after h hst hbefore hafter hfiled ih =>
    obtain rfl := Option.some.inj (hafter.symm.trans hstore)
    obtain ⟨hblock, hreceipt⟩ := ih hbefore
    rw [hfiled.blocks_eq, hfiled.receipts_eq, Function.update_apply,
      Std.ExtTreeMap.getElem?_insert, Std.ExtTreeMap.getElem?_insert]
    by_cases heq : height = call.block.header.height
    · have hcompare : compare call.block.header.height height = .eq :=
        Std.LawfulEqOrd.compare_eq_iff_eq.mpr heq.symm
      rw [if_pos hcompare, if_pos hcompare, if_pos heq]
      exact ⟨rfl, rfl⟩
    · have hcompare : compare call.block.header.height height ≠ .eq := fun hcompare =>
        heq (Std.LawfulEqOrd.compare_eq_iff_eq.mp hcompare).symm
      rw [if_neg hcompare, if_neg hcompare, if_neg heq]
      exact ⟨hblock, hreceipt⟩
  | unstored h hsame ih => exact ih (hsame.symm.trans hstore)
  | restart h hbefore hnew ih =>
    obtain rfl := Option.some.inj ((OpolysNode.new_eq_ok hnew).1.symm.trans hstore)
    exact ih hbefore

end Archive

end Opolys
