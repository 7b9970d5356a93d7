import Opolys.Consensus.Standing
import Opolys.Node.LedgerInvariant
import Opolys.Node.Produce
import Opolys.Node.Supply

/-!
# Who has produced a refined block

The signature of a refined block is checked under the key that is registered in the account
of its producer, and the producer is compared with the refiner that the parent hash selects.
Both are worth as much as the registered keys: every key that is registered anywhere hashes
to the id of its account, and whoever is a refiner has registered one.
-/

namespace Opolys

open Effect
open Codec (FixedBytes)
open OpolysNode (Event)

variable {P : Primitives}

/-! ## Keys and refiners -/

/-- A key of 32 bytes that hashes to the id. -/
def KeyOf (P : Primitives) (id : ObjectId) (pk : List UInt8) : Prop :=
  ∃ key : FixedBytes 32, key.bytes = pk ∧ ed25519PublicKeyToObjectId P key = id

/-- Registered keys belong to their accounts and refiners have one. -/
structure Ledger.Keyed (P : Primitives) (ledger : Ledger) : Prop where
  bound : ∀ id pk, ledger.accounts.keyOf id = some pk → KeyOf P id pk
  registered : ∀ id, (ledger.refiners.getRefiner id).isSome = true →
    (ledger.accounts.keyOf id).isSome = true

namespace Ledger.Keyed

theorem of_keyOf {ledger : Ledger} (h : ledger.Keyed P) {accounts : AccountStore}
    (hkeys : ∀ id, accounts.keyOf id = ledger.accounts.keyOf id) :
    Keyed P { ledger with accounts } where
  bound id pk hid := h.bound id pk (by rw [← hkeys]; exact hid)
  registered id hid := by
    dsimp only
    rw [hkeys]
    exact h.registered id hid

theorem of_derives {ledger : Ledger} (h : ledger.Keyed P) {refiners : RefinerSet}
    {R : RefinerInfo → RefinerInfo → Prop}
    (hderives : RefinerSet.Derives R ledger.refiners refiners) :
    Keyed P { ledger with refiners } where
  bound := h.bound
  registered id hid := h.registered id (hderives.isSome hid)

end Ledger.Keyed

/-! ## Genesis and the key file -/

/-- The configured accounts have no key or a key of their own. -/
def GenesisConfig.KeysBound (P : Primitives) (config : GenesisConfig) : Prop :=
  ∀ entry ∈ config.genesisAccounts, entry.2.2 ≠ [] → KeyOf P entry.1 entry.2.2

theorem keyOf_applyGenesisAccount {state state' : AccountStore × FlakeAmount}
    {entry : ObjectId × FlakeAmount × List UInt8}
    (h : applyGenesisAccount state entry = .ok state') (k : ObjectId) :
    state'.1.keyOf k =
      if entry.1 = k ∧ entry.2.2 ≠ [] then some entry.2.2 else state.1.keyOf k := by
  obtain ⟨id, amount, pk⟩ := entry
  unfold applyGenesisAccount at h
  dsimp only at h
  obtain ⟨accounts, hcredit, h⟩ := bind_eq_ok.mp h
  rw [mapError_eq_ok] at hcredit
  have hstate : state'.1 = accounts := by
    split at h <;> cases h
    rfl
  have hget : (state.1.withAccount id).get? id =
      some ((state.1.get? id).getD (Account.new id)) := by
    rw [AccountStore.get?_withAccount, if_pos rfl]
  have hid : ((state.1.get? id).getD (Account.new id)).objectId = id := Registry.name_of_get? hget
  rw [hstate, AccountStore.keyOf_credit hcredit, Registry.update_of_some hget]
  unfold withGenesisKey
  by_cases hpk : pk = []
  · rw [if_pos (by rw [hpk]; rfl), if_neg (fun hk => hk.2 hpk),
      AccountStore.keyOf_put_of_eq hget hid rfl, AccountStore.keyOf_withAccount]
  · rw [if_neg (by rwa [List.isEmpty_iff]), AccountStore.keyOf_put, AccountStore.keyOf_withAccount]
    dsimp only
    rw [hid]
    by_cases hk : id = k
    · rw [if_pos hk, if_pos ⟨hk, hpk⟩]
    · rw [if_neg hk, if_neg fun hk' => hk hk'.1]

theorem keyOf_applyGenesisAccounts {config : GenesisConfig} (hconfig : config.KeysBound P)
    {accounts : AccountStore} {issued : FlakeAmount}
    (h : applyGenesisAccounts config AccountStore.new = .ok (accounts, issued)) (id : ObjectId)
    (pk : List UInt8) (hid : accounts.keyOf id = some pk) : KeyOf P id pk := by
  unfold applyGenesisAccounts at h
  have hloop (entries : List (ObjectId × FlakeAmount × List UInt8))
      (hentries : ∀ entry ∈ entries, entry.2.2 ≠ [] → KeyOf P entry.1 entry.2.2)
      (state state' : AccountStore × FlakeAmount)
      (hstate : ∀ id pk, state.1.keyOf id = some pk → KeyOf P id pk)
      (h : entries.foldlM applyGenesisAccount state = .ok state') :
      ∀ id pk, state'.1.keyOf id = some pk → KeyOf P id pk := by
    induction entries generalizing state with
    | nil =>
      cases h
      exact hstate
    | cons entry entries ih =>
      rw [List.foldlM_cons] at h
      obtain ⟨state1, hone, h⟩ := bind_eq_ok.mp h
      refine ih (fun e he => hentries e (List.mem_cons_of_mem _ he)) state1 (fun k pk hk => ?_) h
      rw [keyOf_applyGenesisAccount hone] at hk
      split at hk
      · rename_i heq
        cases hk
        rw [← heq.1]
        exact hentries entry List.mem_cons_self heq.2
      · exact hstate k pk hk
  refine hloop config.genesisAccounts hconfig (AccountStore.new, 0) (accounts, issued) ?_ h id pk
    hid
  intro k pk hk
  rw [AccountStore.keyOf_new] at hk
  cases hk

theorem keyed_register {ledger : Ledger} {keyFile : Option (List UInt8)}
    {accounts : AccountStore} (h : ledger.Keyed P)
    (hregister : ensureLocalProducerAccount P ledger.accounts (OpolysNode.loadKey P keyFile).1
      (OpolysNode.loadKey P keyFile).2 = .ok accounts) :
    Ledger.Keyed P { ledger with accounts } := by
  unfold OpolysNode.loadKey at hregister
  cases hseed : keyFile.bind (FixedBytes.ofList? 32) with
  | none =>
    rw [hseed] at hregister
    cases hregister
    exact h
  | some seed =>
    rw [hseed] at hregister
    dsimp only at hregister
    unfold ensureLocalProducerAccount at hregister
    dsimp only at hregister
    split at hregister
    · cases hregister
      exact h
    · generalize hid : ed25519PublicKeyToObjectId P (P.verifyingKey seed) = minerId at hregister
      split at hregister
      · cases hregister
      · rename_i account haccount
        split at hregister
        · split at hregister <;> cases hregister
          exact h.of_keyOf (AccountStore.keyOf_withAccount ledger.accounts minerId)
        · rename_i hnone
          cases hregister
          have hname : account.objectId = minerId := Registry.name_of_get? haccount
          have hkey (k : ObjectId) : AccountStore.keyOf ((ledger.accounts.withAccount minerId).put
              { account with publicKey := some (P.verifyingKey seed).bytes }) k =
                if minerId = k then some (P.verifyingKey seed).bytes
                else ledger.accounts.keyOf k := by
            rw [AccountStore.keyOf_put, AccountStore.keyOf_withAccount]
            dsimp only
            rw [hname]
          refine ⟨fun k pk hk => ?_, fun k hk => ?_⟩
          · dsimp only at hk
            rw [hkey] at hk
            split at hk
            · rename_i heq
              cases hk
              exact ⟨P.verifyingKey seed, rfl, hid.trans heq⟩
            · exact h.bound k pk hk
          · dsimp only
            rw [hkey]
            split
            · rfl
            · exact h.registered k hk

/-! ## Transactions -/

namespace TransactionDispatcher

/-- An executed transaction registers the key of its sender, under which it was verified. -/
theorem keyed_dispatch {tx : Transaction} {context : ExecutionContext} {ledger ledger' : Ledger}
    {charged : FlakeAmount × FlakeAmount} (h : ledger.Keyed P)
    (hrun : dispatch P tx context mainnetChainId ledger = .ok charged ledger') :
    ledger'.Keyed P := by
  have hmoves := movesStake_of_dispatch hrun
  obtain ⟨key, hkey, hsender⟩ := verifyTransaction_key (dispatch_eq_ok hrun).1
  have hkeys := keyOf_dispatch hrun
  refine ⟨fun k pk hk => ?_, fun k hk => ?_⟩
  · rw [hkeys] at hk
    split at hk
    · rename_i heq
      cases hk
      exact ⟨key, hkey, hsender.trans heq⟩
    · exact h.bound k pk hk
  · rw [hkeys]
    split
    · rfl
    · rename_i hne
      refine h.registered k ?_
      unfold MovesStake at hmoves
      split at hmoves
      · rwa [hmoves] at hk
      · rwa [(RefinerSet.getRefiner_bond hmoves).1 k (Ne.symm hne)] at hk
      · exact (RefinerSet.derives_unbondAmount hmoves).isSome hk

end TransactionDispatcher

/-! ## Runs -/

/-- Registered keys stay with their accounts, and every refiner keeps one. -/
theorem keyed_invariant {config : GenesisConfig} (hconfig : config.KeysBound P) :
    LedgerInvariant P config (Ledger.Keyed P) where
  genesis hgenesis := by
    obtain ⟨hrefiners, -⟩ := OpolysNode.genesisState_chain hgenesis
    unfold OpolysNode.genesisState at hgenesis
    obtain ⟨chain', -, hgenesis⟩ := bind_eq_ok.mp hgenesis
    obtain ⟨⟨accounts', issued⟩, haccounts, hgenesis⟩ := bind_eq_ok.mp hgenesis
    rw [mapError_eq_ok] at haccounts
    obtain ⟨-, hrest⟩ := Prod.mk.inj (Except.ok.inj hgenesis)
    obtain ⟨rfl, -⟩ := Prod.mk.inj hrest
    refine ⟨fun id pk hid => keyOf_applyGenesisAccounts hconfig haccounts id pk hid, ?_⟩
    intro id hid
    rw [hrefiners] at hid
    simp [RefinerSet.new, RefinerSet.getRefiner] at hid
  register h hregister := keyed_register h hregister
  credit _ _ _ _ h hcredit := h.of_keyOf (keyOf_creditOrCreateAccount hcredit)
  execute h hrun := TransactionDispatcher.keyed_dispatch h hrun
  perform operation h hinternal := h.of_derives (RefinerSet.derives_perform _ hinternal)

/-! ## Refined blocks -/

/-- A header signed by the active refiner that the parent hash selects, under the key it has
registered. -/
structure AuthenticHeader (P : Primitives) (node : OpolysNode) (header : BlockHeader) : Prop where
  parent : header.previousHash = node.chain.latestBlockHash
  signed : ∃ key : FixedBytes 32, ∃ signature : FixedBytes 64,
    node.accounts.keyOf header.producer = some key.bytes ∧
      ed25519PublicKeyToObjectId P key = header.producer ∧
      header.refinerSignature = some signature.bytes ∧
      P.verifyStrict key (refinerBlockSigningPayload (computeBlockHash P header)) signature = true
  selected : ∃ r, node.refiners.selectBlockProducer (selectionSeed header.previousHash) = some r ∧
    r.objectId = header.producer ∧ node.refiners.getRefiner header.producer = some r ∧
      r.status = .active

theorem verifyRefinerSignature_eq_ok {accounts : AccountStore} {header : BlockHeader}
    (h : verifyRefinerSignature P accounts header = .ok ())
    (hproducer : header.producer.hash.isZero = false)
    (hsigned : header.refinerSignature.isSome = true) :
    ∃ key : FixedBytes 32, ∃ signature : FixedBytes 64,
      accounts.keyOf header.producer = some key.bytes ∧
        header.refinerSignature = some signature.bytes ∧
        P.verifyStrict key (refinerBlockSigningPayload (computeBlockHash P header)) signature =
          true := by
  unfold verifyRefinerSignature at h
  split at h
  · rename_i hnone
    rw [hnone] at hsigned
    cases hsigned
  · rename_i sigBytes hsig
    rw [if_neg (by rw [hproducer]; nofun)] at h
    split at h
    · cases h
    · rename_i signature hsignature
      split at h
      · cases h
      · rename_i account haccount
        split at h
        · cases h
        · rename_i pkBytes hpk
          split at h
          · cases h
          · rename_i key hkey
            rw [check_bind_eq_ok, check_eq_ok] at h
            refine ⟨key, signature, ?_, ?_, h.2⟩
            · rw [FixedBytes.bytes_of_ofList? hkey]
              exact AccountStore.keyOf_eq_some.mpr ⟨account, haccount, hpk⟩
            · rw [FixedBytes.bytes_of_ofList? hsignature]
              exact hsig

/-- The attestations of a block change no standing. -/
theorem Accepted.sameStanding {env : Env} {block : Block} {node node' : OpolysNode} {st : Stages}
    (h : Accepted P env block node node' st) :
    node.refiners.SameStanding st.finalized.refiners := by
  have hloop := run_foldlM_invariant
    (I := fun (_ : AttestationLog) node' => node.refiners.SameStanding node'.refiners)
    (RefinerSet.SameStanding.refl _) ?_ h.attest
  · rw [h.finalized_frame]
    exact hloop
  · intro log node1 attestation log' node2 _ h1 hround
    obtain ⟨-, -, _, _, -, -, -, -, refiners, hrecord, -, rfl⟩ := processAttestation_eq_ok hround
    exact h1.trans (RefinerSet.sameStanding_recordCorrectAttestation hrecord)

/-- Where the keys belong to their accounts, an accepted refined block is authentic. -/
theorem Accepted.authentic {env : Env} {block : Block} {node node' : OpolysNode} {st : Stages}
    (h : Accepted P env block node node' st) (hkeyed : node.ledger.Keyed P)
    (hset : node.refiners.WellFormed)
    (hrefined : block.header.productionKind = some .refined) :
    AuthenticHeader P node block.header := by
  obtain ⟨-, hprevious, -, -⟩ := checkBlock_header h.check
  obtain ⟨hkind, hproducer, -⟩ := checkBlock_eq_ok h.check
  have hst : st.kind = .refined := Option.some.inj (hkind.symm.trans hrefined)
  have hne : block.header.producer.hash.isZero = false := hproducer (by rw [hst]; nofun)
  have hsigned : block.header.refinerSignature.isSome = true := by
    unfold BlockHeader.productionKind at hrefined
    split at hrefined <;> first | assumption | cases hrefined
  have hframe := h.finalized_frame
  have hchecks := h.producer
  unfold checkProducer at hchecks
  obtain ⟨⟨⟩, hsignature, hchecks⟩ := bind_eq_ok.mp hchecks
  rw [hst] at hchecks
  dsimp only at hchecks
  rw [if_neg (by rw [hne]; nofun)] at hchecks
  refine ⟨hprevious, ?_, ?_⟩
  · have haccounts : st.finalized.accounts = node.accounts := by rw [hframe]
    rw [haccounts] at hsignature
    obtain ⟨key, signature, hkey, hsig, hverify⟩ :=
      verifyRefinerSignature_eq_ok hsignature hne hsigned
    obtain ⟨key', hbytes, hid⟩ := hkeyed.bound block.header.producer key.bytes hkey
    obtain rfl := FixedBytes.bytes_injective hbytes
    exact ⟨key', signature, hkey, hid, hsig, hverify⟩
  · have hlatest : st.finalized.chain.latestBlockHash = node.chain.latestBlockHash := by
      rw [hframe]
    unfold checkRefinedProducer at hchecks
    rw [hlatest, h.sameStanding.selectBlockProducer_eq] at hchecks
    rw [hprevious]
    cases hselect : node.refiners.selectBlockProducer
      (selectionSeed node.chain.latestBlockHash) with
    | none =>
      rw [hselect] at hchecks
      cases hchecks
    | some r =>
      rw [hselect, Option.map_some] at hchecks
      dsimp only at hchecks
      rw [check_eq_ok] at hchecks
      obtain ⟨hget, hactive⟩ := RefinerSet.selectBlockProducer_active hset hselect
      have hid : r.objectId = block.header.producer := by
        rw [← hchecks, (h.sameStanding.counterpart_eq hget).2.1]
      exact ⟨r, rfl, hid, hid ▸ hget, hactive⟩

/-- A refined block issues nothing. -/
theorem Accepted.refined_issues_nothing {env : Env} {block : Block} {node node' : OpolysNode}
    {st : Stages} (h : Accepted P env block node node' st)
    (hrefined : block.header.productionKind = some .refined) :
    node'.chain.totalIssued = node.chain.totalIssued := by
  have hst : st.kind = .refined :=
    Option.some.inj ((checkBlock_eq_ok h.check).1.symm.trans hrefined)
  have hreward : st.opening.reward.grossReward = 0 := by
    rw [h.reward_eq, hst]
    rfl
  rw [h.chain_eq, hreward]
  exact MachineInt.saturatingAdd_zero _

/-- In every run from genesis, with calls and restarts in any order: every registered key
hashes to the id of its account, every refiner has an account with a registered key, and a
refined block that is accepted next is signed, over its own hash, by the key that its
producer has registered, comes from the active refiner that the parent hash selects, and
issues nothing. -/
theorem refined_blocks_authentic {config : GenesisConfig} (hconfig : config.KeysBound P)
    {keyFile : Option (List UInt8)} {start : OpolysNode}
    (h : OpolysNode.new P config keyFile BlockchainStore.empty = .ok start)
    (events : List Event) :
    let node := Transition.run (OpolysNode.next P config) start events
    (∀ id account pk, node.accounts.getAccount id = some account →
        account.publicKey = some pk → KeyOf P id pk) ∧
      (∀ id r, node.refiners.getRefiner id = some r → ∃ account pk,
        node.accounts.getAccount id = some account ∧ account.publicKey = some pk) ∧
      ∀ call, node.accepts P call = true →
        call.block.header.productionKind = some .refined →
          AuthenticHeader P node call.block.header ∧
            (node.step P call).chain.totalIssued = node.chain.totalIssued := by
  intro node
  have hkeyed : node.ledger.Keyed P := (keyed_invariant hconfig).run h events
  have hset : node.refiners.WellFormed := (wellFormed_invariant config).run h events
  refine ⟨fun id account pk haccount hpk => ?_, fun id r hr => ?_, fun call haccept hrefined => ?_⟩
  · exact hkeyed.bound id pk (AccountStore.keyOf_eq_some.mpr ⟨account, haccount, hpk⟩)
  · have hregistered := hkeyed.registered id (Option.isSome_iff_exists.mpr ⟨r, hr⟩)
    obtain ⟨pk, hpk⟩ := Option.isSome_iff_exists.mp hregistered
    obtain ⟨account, haccount, hkey⟩ := AccountStore.keyOf_eq_some.mp hpk
    exact ⟨account, pk, haccount, hkey⟩
  · obtain ⟨st, hst⟩ := OpolysNode.accepted_of_accepts haccept
    exact ⟨hst.authentic hkeyed hset hrefined, hst.refined_issues_nothing hrefined⟩

theorem Reference.keysBound_config (amounts : List (UInt8 × FlakeAmount)) :
    (Reference.config amounts).KeysBound Reference.primitives := by
  intro entry hentry _
  obtain ⟨⟨n, amount⟩, -, rfl⟩ := List.mem_map.mp hentry
  exact ⟨Reference.publicKey n, rfl, rfl⟩

/-- A node that has mined a block and is started again with another key file. -/
theorem refined_blocks_authentic_of_reference :
    let config := Reference.config [(1, 1000000000), (2, 1000000)]
    let start := Reference.start config (some 1)
    let mined := Reference.call (Reference.mine start 0 {})
    let node := Transition.run (OpolysNode.next Reference.primitives config) start
      [.call mined, .restart (some (Reference.seed 2).bytes)]
    (∀ id account pk, node.accounts.getAccount id = some account →
        account.publicKey = some pk → KeyOf Reference.primitives id pk) ∧
      (∀ id r, node.refiners.getRefiner id = some r → ∃ account pk,
        node.accounts.getAccount id = some account ∧ account.publicKey = some pk) ∧
      ∀ call, node.accepts Reference.primitives call = true →
        call.block.header.productionKind = some .refined →
          AuthenticHeader Reference.primitives node call.block.header ∧
            (node.step Reference.primitives call).chain.totalIssued = node.chain.totalIssued := by
  intro config start mined node
  exact refined_blocks_authentic (Reference.keysBound_config _)
    (Reference.new_start config (some 1) (by decide +kernel)) _

end Opolys
