import Opolys.Consensus.Lifecycle
import Opolys.Node.Produce

/-!
# What a state root commits to

The state root hashes the roots of accounts and refiners with the totals and the height.
The records below these roots are streamed into the hash without counts or separators, the
refiners followed by the queue. What keeps the two sequences apart is that a queue names
only refiners that are in the set, so that a stream cannot go on with a refiner on one side
and with a withdrawal on the other.
-/

namespace Opolys

open Codec (Borsh FixedBytes)
open Effect (bind_eq_ok)

variable {P : Primitives}

/-! ## What is hashed -/

theorem mapM_borshToVec {α : Type} [Borsh α] {what : String} {xs : List α}
    {encoded : List (List UInt8)} (h : xs.mapM (fun x => borshToVec what x) = .ok encoded) :
    xs.all Borsh.fits = true ∧ encoded.flatten = Borsh.encodeItems xs := by
  induction xs generalizing encoded with
  | nil =>
    cases h
    exact ⟨rfl, rfl⟩
  | cons x xs ih =>
    rw [List.mapM_cons] at h
    obtain ⟨bytes, hx, h⟩ := bind_eq_ok.mp h
    obtain ⟨rest, hxs, h⟩ := bind_eq_ok.mp h
    cases h
    obtain ⟨hfits, hrest⟩ := ih hxs
    obtain ⟨hfx, hbytes⟩ := Borsh.toVec_eq_some.mp (borshToVec_eq_ok.mp hx)
    refine ⟨?_, ?_⟩
    · rw [List.all_cons, hfx, hfits]
      rfl
    · rw [List.flatten_cons, hrest, Borsh.encodeItems_cons, hbytes]

/-- What is hashed of the accounts. -/
def AccountStore.rootPreimage (store : AccountStore) : List UInt8 :=
  domainStateRoot ++ tag "accounts" ++ Borsh.encodeItems store.values

/-- What is hashed of the refiners. -/
def RefinerSet.rootPreimage (set : RefinerSet) : List UInt8 :=
  domainStateRoot ++ tag "refiners" ++
    (Borsh.encodeItems set.cachedRefiners.values ++ Borsh.encodeItems set.unbondingQueue)

namespace OpolysNode

/-- What the state root hashes. -/
def rootPreimage (P : Primitives) (node : OpolysNode) : List UInt8 :=
  domainStateRoot ++ tag "chain" ++ ((P.blake3 (AccountStore.rootPreimage node.accounts)).bytes ++
    ((P.blake3 node.refiners.rootPreimage).bytes ++
      (Codec.beBytes 8 node.chain.totalIssued.toNat ++
        (Codec.beBytes 8 node.chain.totalBurned.toNat ++
          Codec.beBytes 8 node.chain.currentHeight.toNat))))

/-- Everything that is hashed on the way to the state root. -/
def rootPreimages (P : Primitives) (node : OpolysNode) : Set (List UInt8) :=
  {AccountStore.rootPreimage node.accounts, node.refiners.rootPreimage, node.rootPreimage P}

end OpolysNode

theorem AccountStore.computeStateRoot_eq_ok {store : AccountStore} {root : Hash}
    (h : AccountStore.computeStateRoot P store = .ok root) :
    store.values.all Borsh.fits = true ∧ root = P.blake3 (AccountStore.rootPreimage store) := by
  unfold AccountStore.computeStateRoot at h
  obtain ⟨encoded, henc, h⟩ := bind_eq_ok.mp h
  cases h
  obtain ⟨hfits, hflat⟩ := mapM_borshToVec henc
  refine ⟨hfits, ?_⟩
  rw [AccountStore.rootPreimage, hflat]

theorem RefinerSet.computeStateRoot_eq_ok {set : RefinerSet} {root : Hash}
    (h : set.computeStateRoot P = .ok root) :
    set.cachedRefiners.values.all Borsh.fits = true ∧ root = P.blake3 set.rootPreimage := by
  unfold RefinerSet.computeStateRoot at h
  obtain ⟨refiners, hrefiners, h⟩ := bind_eq_ok.mp h
  obtain ⟨queue, hqueue, h⟩ := bind_eq_ok.mp h
  cases h
  obtain ⟨hfits, hflat⟩ := mapM_borshToVec hrefiners
  obtain ⟨-, hqflat⟩ := mapM_borshToVec hqueue
  refine ⟨hfits, ?_⟩
  rw [RefinerSet.rootPreimage, hflat, hqflat, List.append_assoc _ (Borsh.encodeItems _)]

theorem computeStateRoot_eq_ok {node : OpolysNode} {root : Hash}
    (h : computeStateRoot P node = .ok root) :
    node.accounts.values.all Borsh.fits = true ∧
      node.refiners.cachedRefiners.values.all Borsh.fits = true ∧
      root = P.blake3 (node.rootPreimage P) := by
  unfold computeStateRoot at h
  obtain ⟨accountsRoot, haccounts, h⟩ := bind_eq_ok.mp h
  obtain ⟨refinersRoot, hrefiners, h⟩ := bind_eq_ok.mp h
  cases h
  cases ha : AccountStore.computeStateRoot P node.accounts with
  | error e =>
    rw [ha] at haccounts
    cases haccounts
  | ok root =>
    cases hr : node.refiners.computeStateRoot P with
    | error e =>
      rw [hr] at hrefiners
      cases hrefiners
    | ok root' =>
      rw [ha] at haccounts
      rw [hr] at hrefiners
      cases haccounts
      cases hrefiners
      obtain ⟨hfa, rfl⟩ := AccountStore.computeStateRoot_eq_ok ha
      obtain ⟨hfr, rfl⟩ := RefinerSet.computeStateRoot_eq_ok hr
      refine ⟨hfa, hfr, ?_⟩
      rw [OpolysNode.rootPreimage]
      simp only [List.append_assoc]

/-! ## What the bytes determine -/

theorem encode_account (a : Account) :
    Borsh.encode a = a.objectId.asBytes ++ Borsh.encode (a.balance, a.nonce, a.publicKey) := rfl

theorem encode_refiner (r : RefinerInfo) :
    Borsh.encode r = r.objectId.asBytes ++
      Borsh.encode (r.entries, r.status, r.lastSignedHeight,
        r.consecutiveCorrectAttestations) := rfl

theorem encode_pendingUnbond (u : PendingUnbond) :
    Borsh.encode u = u.account.asBytes ++ Borsh.encode (u.amount, u.maturesAt) := rfl

/-- Bytes that begin with an identifier are not empty. -/
theorem asBytes_append_ne_nil (id : ObjectId) (rest : List UInt8) : id.asBytes ++ rest ≠ [] := by
  intro h
  have hlen := congrArg List.length h
  rw [List.length_append, ObjectId.asBytes, FixedBytes.length_bytes, List.length_nil] at hlen
  omega

theorem asBytes_append_inj {id id' : ObjectId} {s t : List UInt8}
    (h : id.asBytes ++ s = id'.asBytes ++ t) : id = id' ∧ s = t := by
  obtain ⟨hid, hst⟩ := List.append_inj h (by
    rw [ObjectId.asBytes, ObjectId.asBytes, FixedBytes.length_bytes, FixedBytes.length_bytes])
  exact ⟨ObjectId.hash_injective (FixedBytes.bytes_injective hid), hst⟩

theorem AccountStore.rootPreimage_inj {a b : AccountStore}
    (ha : a.values.all Borsh.fits = true) (hb : b.values.all Borsh.fits = true)
    (h : rootPreimage a = rootPreimage b) : a = b := by
  have hitems := Borsh.encodeItems_inj (fun account => encode_account account ▸
    asBytes_append_ne_nil _ _) ha hb (List.append_cancel_left h)
  rw [← Registry.ofList_values a, hitems, Registry.ofList_values]

theorem RefinerSet.rootPreimage_inj {a b : RefinerSet}
    (hqa : ∀ u ∈ a.unbondingQueue, ∃ r, a.getRefiner u.account = some r)
    (hqb : ∀ u ∈ b.unbondingQueue, ∃ r, b.getRefiner u.account = some r)
    (ha : a.cachedRefiners.values.all Borsh.fits = true)
    (hb : b.cachedRefiners.values.all Borsh.fits = true)
    (h : a.rootPreimage = b.rootPreimage) :
    a.cachedRefiners = b.cachedRefiners ∧ a.unbondingQueue = b.unbondingQueue := by
  have hfits (queue : List PendingUnbond) : queue.all Borsh.fits = true :=
    List.all_eq_true.mpr fun _ _ => rfl
  have hlisted {set : RefinerSet}
      (hq : ∀ u ∈ set.unbondingQueue, ∃ r, set.getRefiner u.account = some r) :
      ∀ u ∈ set.unbondingQueue,
        u.account ∈ [] ++ set.cachedRefiners.values.map RefinerInfo.objectId := by
    intro u hu
    obtain ⟨r, hr⟩ := hq u hu
    obtain ⟨hmem, hid⟩ := Registry.get?_eq_some.mp hr
    exact List.mem_map.mpr ⟨r, hmem, hid⟩
  have hname {r : RefinerInfo} {u : PendingUnbond} {s t : List UInt8}
      (he : Borsh.encode r ++ s = Borsh.encode u ++ t) : r.objectId = u.account := by
    rw [encode_refiner, encode_pendingUnbond, List.append_assoc, List.append_assoc] at he
    exact (asBytes_append_inj he).1
  obtain ⟨hrefiners, hqueue⟩ := Borsh.encodeItems_references_inj hname
    (fun r => encode_refiner r ▸ asBytes_append_ne_nil _ _)
    (fun u => encode_pendingUnbond u ▸ asBytes_append_ne_nil _ _)
    a.cachedRefiners.nodup_map_name_values b.cachedRefiners.nodup_map_name_values
    (hlisted hqa) (hlisted hqb) ha hb (hfits _) (hfits _) (List.append_cancel_left h)
  refine ⟨?_, hqueue⟩
  rw [← Registry.ofList_values a.cachedRefiners, hrefiners, Registry.ofList_values]

/-- Two nodes with the same state root have the same accounts, refiners, queue, totals and
height, unless two of the messages hashed on the way collide. -/
theorem stateRoot_commits {a b : OpolysNode} {root : Hash}
    (hcf : CollisionFree P.blake3 (a.rootPreimages P ∪ b.rootPreimages P))
    (hqa : ∀ u ∈ a.refiners.unbondingQueue, ∃ r, a.refiners.getRefiner u.account = some r)
    (hqb : ∀ u ∈ b.refiners.unbondingQueue, ∃ r, b.refiners.getRefiner u.account = some r)
    (ha : computeStateRoot P a = .ok root) (hb : computeStateRoot P b = .ok root) :
    a.accounts = b.accounts ∧ a.refiners.cachedRefiners = b.refiners.cachedRefiners ∧
      a.refiners.unbondingQueue = b.refiners.unbondingQueue ∧
      a.chain.totalIssued = b.chain.totalIssued ∧
      a.chain.totalBurned = b.chain.totalBurned ∧
      a.chain.currentHeight = b.chain.currentHeight := by
  obtain ⟨hfa, hfr, hroot⟩ := computeStateRoot_eq_ok ha
  obtain ⟨hfa', hfr', hroot'⟩ := computeStateRoot_eq_ok hb
  have hmem (node : OpolysNode) : AccountStore.rootPreimage node.accounts ∈ node.rootPreimages P ∧
      node.refiners.rootPreimage ∈ node.rootPreimages P ∧
      node.rootPreimage P ∈ node.rootPreimages P :=
    ⟨Or.inl rfl, Or.inr (Or.inl rfl), Or.inr (Or.inr rfl)⟩
  have htop : a.rootPreimage P = b.rootPreimage P :=
    hcf _ (Or.inl (hmem a).2.2) _ (Or.inr (hmem b).2.2) (hroot.symm.trans hroot')
  obtain ⟨haccounts, htop⟩ := List.append_inj (List.append_cancel_left htop) (by
    rw [FixedBytes.length_bytes, FixedBytes.length_bytes])
  obtain ⟨hrefiners, htop⟩ := List.append_inj htop (by
    rw [FixedBytes.length_bytes, FixedBytes.length_bytes])
  obtain ⟨hissued, htop⟩ := List.append_inj htop (by simp)
  obtain ⟨hburned, hheight⟩ := List.append_inj htop (by simp)
  have haccounts := hcf _ (Or.inl (hmem a).1) _ (Or.inr (hmem b).1)
    (FixedBytes.bytes_injective haccounts)
  have hrefiners := hcf _ (Or.inl (hmem a).2.1) _ (Or.inr (hmem b).2.1)
    (FixedBytes.bytes_injective hrefiners)
  obtain ⟨hrecords, hqueue⟩ := RefinerSet.rootPreimage_inj hqa hqb hfr hfr' hrefiners
  exact ⟨AccountStore.rootPreimage_inj hfa hfa' haccounts, hrecords, hqueue,
    Codec.beBytes_uint64_inj hissued, Codec.beBytes_uint64_inj hburned,
    Codec.beBytes_uint64_inj hheight⟩

/-- A node with a refiner and a pending withdrawal, and the same node with its active ids in
another order. -/
theorem stateRoot_commits_of_reference :
    let refiners := Transition.run RefinerSet.perform RefinerSet.new
      [.bond (Reference.account 1) 32000000 1 90 1000000000,
        .unbondAmount (Reference.account 1) 5 2]
    let a := { Reference.start (Reference.config [(1, 1000000000)]) none with refiners }
    let b := { a with refiners := { refiners with activeSet := refiners.activeSet.reverse } }
    a.accounts = b.accounts ∧ a.refiners.cachedRefiners = b.refiners.cachedRefiners ∧
      a.refiners.unbondingQueue = b.refiners.unbondingQueue ∧
      a.chain.totalIssued = b.chain.totalIssued ∧
      a.chain.totalBurned = b.chain.totalBurned ∧
      a.chain.currentHeight = b.chain.currentHeight := by
  intro refiners a b
  have hknown : ∀ u ∈ refiners.unbondingQueue, ∃ r, refiners.getRefiner u.account = some r :=
    fun u hu => by
      obtain ⟨r, hr, -⟩ := (RefinerSet.wellFormed_run RefinerSet.wellFormed_new _).queue_known u hu
      exact ⟨r, hr⟩
  have hroot : computeStateRoot Reference.primitives a =
      .ok ((computeStateRoot Reference.primitives a).toOption.getD Hash.zero) :=
    Effect.eq_ok_getD (by decide +kernel)
  refine stateRoot_commits (P := Reference.primitives) ?_ hknown hknown hroot hroot
  have hsame : b.rootPreimages Reference.primitives = a.rootPreimages Reference.primitives := rfl
  rw [hsame, Set.union_self]
  have hmsgs : a.rootPreimages Reference.primitives ⊆
      {m | m ∈ [AccountStore.rootPreimage a.accounts, a.refiners.rootPreimage,
        a.rootPreimage Reference.primitives]} := by
    rintro m (rfl | rfl | rfl) <;> simp
  refine (collisionFree_of_nodup ?_).mono hmsgs
  decide +kernel

end Opolys
