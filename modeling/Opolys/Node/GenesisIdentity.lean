import Mathlib.Algebra.Order.BigOperators.Group.List
import Opolys.Node.BlockIdentity
import Opolys.Node.Supply

/-!
# What the genesis hash identifies

Nodes compare the hash of their genesis block. The hash covers most of the configuration, one
field after the other without their lengths, and it leaves out the gold spot price.

* `genesis_identity` : what two configurations with one genesis hash have in common.
-/

namespace Opolys

open Codec (FixedBytes beBytes)
open Effect (bind_eq_ok)

variable {P : Primitives}

/-! ## Texts -/

theorem toList_loop_eq_drop (bytes : ByteArray) (i : ℕ) (acc : List UInt8) :
    ByteArray.toList.loop bytes i acc = acc.reverse ++ bytes.data.toList.drop i := by
  fun_induction ByteArray.toList.loop bytes i acc with
  | case1 i acc hlt ih =>
    have hi : i < bytes.data.toList.length := hlt
    have hget : bytes.get! i = bytes.data.toList[i] := getElem!_pos bytes.data i hlt
    rw [ih, List.drop_eq_getElem_cons hi, hget]
    simp
  | case2 i acc hge =>
    have hi : bytes.data.toList.length ≤ i := not_lt.mp hge
    simp [List.drop_eq_nil_of_le hi]

/-- The bytes of a text are the text. -/
theorem tag_inj {s t : String} : tag s = tag t ↔ s = t := by
  constructor
  · intro h
    unfold tag ByteArray.toList at h
    rw [toList_loop_eq_drop, toList_loop_eq_drop] at h
    simp only [List.reverse_nil, List.nil_append, List.drop_zero] at h
    exact String.toByteArray_inj.mp (ByteArray.ext (Array.toList_inj.mp h))
  · rintro rfl
    rfl

/-! ## Configurations -/

namespace GenesisConfig

/-- What two configurations have in common if a node starts from both alike. -/
structure SameStart (c c' : GenesisConfig) : Prop where
  accounts : applyGenesisAccounts c AccountStore.new = applyGenesisAccounts c' AccountStore.new
  baseReward : c.baseReward = c'.baseReward
  initialDifficulty : c.initialDifficulty = c'.initialDifficulty
  attestation : c.attestation = c'.attestation

/-- The genesis blocks of two configurations have one hash, and not by a collision. -/
structure SameIdentity (P : Primitives) (c c' : GenesisConfig) : Prop where
  hash : ∃ genesis genesis', buildGenesisBlock P c = .ok genesis ∧
    buildGenesisBlock P c' = .ok genesis' ∧
    computeBlockHash P genesis.header = computeBlockHash P genesis'.header ∧
    CollisionFree P.blake3 {blockHashMessage genesis.header, blockHashMessage genesis'.header}
  state : CollisionFree P.blake3 {genesisStatePreimage c, genesisStatePreimage c'}

/-- Two configurations whose texts and keys are of the same lengths. -/
structure Aligned (c c' : GenesisConfig) : Prop where
  version : (tag c.protocolVersion).length = (tag c'.protocolVersion).length
  formula : (tag c.attestation.derivationFormula).length =
    (tag c'.attestation.derivationFormula).length
  keys : c.genesisAccounts.map (fun entry => entry.2.2.length) =
    c'.genesisAccounts.map fun entry => entry.2.2.length

/-- Every configuration with the same genesis hash starts alike. -/
def Identified (P : Primitives) (c : GenesisConfig) : Prop :=
  ∀ c', SameIdentity P c c' → SameStart c c'

/-- The same configuration at another gold spot price. -/
def repriced (c : GenesisConfig) : GenesisConfig :=
  { c with attestation := { c.attestation with
      goldSpotPriceUsdCents := c.attestation.goldSpotPriceUsdCents + 1 } }

/-- The bytes of an account in the state root. -/
def accountBytes (entry : ObjectId × FlakeAmount × List UInt8) : List UInt8 :=
  entry.1.asBytes ++ beBytes 8 entry.2.1.toNat ++ entry.2.2

/-- The same configuration with all accounts but the first one in the key of the first. -/
def merged (c : GenesisConfig) : GenesisConfig :=
  match c.genesisAccounts with
  | [] => c
  | (id, amount, pk) :: rest =>
    { c with genesisAccounts := [(id, amount, pk ++ rest.flatMap accountBytes)] }

end GenesisConfig

open GenesisConfig

/-- A configuration with the same bytes and the same header has the same identity. -/
theorem sameIdentity_of_preimage_eq {c c' : GenesisConfig} {genesis : Block}
    (hbuild : buildGenesisBlock P c = .ok genesis)
    (hpreimage : genesisStatePreimage c' = genesisStatePreimage c)
    (hceremony : c'.ceremonyData = c.ceremonyData)
    (hdifficulty : c'.initialDifficulty = c.initialDifficulty)
    (htimestamp : c'.attestation.ceremonyTimestamp = c.attestation.ceremonyTimestamp) :
    SameIdentity P c c' := by
  have hsame : buildGenesisBlock P c' = buildGenesisBlock P c := by
    unfold buildGenesisBlock
    rw [hpreimage, hceremony, hdifficulty, htimestamp]
  have hfree (msg : List UInt8) : CollisionFree P.blake3 {msg, msg} := by
    rintro a ha b hb -
    rw [Set.pair_eq_singleton, Set.mem_singleton_iff] at ha hb
    rw [ha, hb]
  refine ⟨⟨genesis, genesis, hbuild, hsame.trans hbuild, rfl, hfree _⟩, ?_⟩
  rw [hpreimage]
  exact hfree _

/-- The gold spot price is not under the hash. -/
theorem sameIdentity_repriced {c : GenesisConfig} {genesis : Block}
    (hbuild : buildGenesisBlock P c = .ok genesis) : SameIdentity P c c.repriced :=
  sameIdentity_of_preimage_eq hbuild rfl rfl rfl rfl

theorem repriced_ne (c : GenesisConfig) : c.attestation ≠ c.repriced.attestation := by
  intro h
  have hprice : c.attestation.goldSpotPriceUsdCents =
      c.attestation.goldSpotPriceUsdCents + 1 := congrArg GenesisAttestation.goldSpotPriceUsdCents h
  rw [left_eq_add] at hprice
  exact absurd hprice (by decide)

/-! ## Accounts -/

theorem genesisStatePreimage_merged (c : GenesisConfig) :
    genesisStatePreimage c.merged = genesisStatePreimage c := by
  obtain ⟨difficulty, version, attestation, accounts, baseReward, ceremony⟩ := c
  cases accounts with
  | nil => rfl
  | cons first rest =>
    obtain ⟨id, amount, pk⟩ := first
    unfold genesisStatePreimage merged
    dsimp only
    rw [List.flatMap_cons, List.flatMap_cons, List.flatMap_nil, List.append_nil]
    dsimp only
    rw [← List.append_assoc (id.asBytes ++ beBytes 8 amount.toNat)]
    rfl

/-- Every account adds its amount to what is issued. -/
theorem issued_foldlM {entries : List (ObjectId × FlakeAmount × List UInt8)}
    {state state' : AccountStore × FlakeAmount}
    (h : entries.foldlM applyGenesisAccount state = .ok state') :
    state'.2.toNat = state.2.toNat + (entries.map fun entry => entry.2.1.toNat).sum := by
  induction entries generalizing state with
  | nil =>
    cases h
    simp
  | cons entry entries ih =>
    rw [List.foldlM_cons] at h
    obtain ⟨next, hstep, h⟩ := bind_eq_ok.mp h
    obtain ⟨-, hissued, -⟩ := applyGenesisAccount_eq_ok hstep
    rw [ih h, hissued, List.map_cons, List.sum_cons]
    omega

/-- The first account is always applied. -/
theorem exists_applyGenesisAccount (entry : ObjectId × FlakeAmount × List UInt8) :
    ∃ state, applyGenesisAccount (AccountStore.new, 0) entry = .ok state := by
  obtain ⟨id, amount, pk⟩ := entry
  have hget : (AccountStore.new.withAccount id).get? id = some (Account.new id) := by
    rw [AccountStore.get?_withAccount, if_pos rfl]
    rfl
  have hkeyed : (withGenesisKey pk (Account.new id)).objectId = id ∧
      (withGenesisKey pk (Account.new id)).balance = 0 := by
    unfold withGenesisKey
    split
    · exact ⟨rfl, rfl⟩
    · exact ⟨rfl, rfl⟩
  have hput : ((AccountStore.new.withAccount id).put (withGenesisKey pk (Account.new id))).get? id =
      some (withGenesisKey pk (Account.new id)) := by
    rw [Registry.get?_put, if_pos hkeyed.1]
  have hamount := amount.toNat_lt
  have hcredit : ∃ accounts, AccountStore.credit ((AccountStore.new.withAccount id).put
      (withGenesisKey pk (Account.new id))) id amount = .ok accounts := by
    apply AccountStore.exists_credit hput
    rw [hkeyed.2]
    exact (Nat.zero_add _).trans_lt hamount
  obtain ⟨accounts, hcredit⟩ := hcredit
  have hissued : MachineInt.checkedAdd (0 : UInt64) amount = some (0 + amount) :=
    MachineInt.checkedAdd_of_lt ((Nat.zero_add _).trans_lt hamount)
  unfold applyGenesisAccount
  dsimp only
  rw [Registry.update_of_some hget, hcredit, hissued]
  exact ⟨_, rfl⟩

/-- When a later account has a balance, merging the accounts changes what is issued. -/
theorem applyGenesisAccounts_merged {c : GenesisConfig}
    {first : ObjectId × FlakeAmount × List UInt8}
    {rest : List (ObjectId × FlakeAmount × List UInt8)}
    (haccounts : c.genesisAccounts = first :: rest) (hrest : ∃ entry ∈ rest, entry.2.1 ≠ 0) :
    applyGenesisAccounts c AccountStore.new ≠ applyGenesisAccounts c.merged AccountStore.new := by
  obtain ⟨id, amount, pk⟩ := first
  obtain ⟨entry, hentry, hne⟩ := hrest
  have hmerged : c.merged.genesisAccounts = [(id, amount, pk ++ rest.flatMap accountBytes)] := by
    unfold merged
    rw [haccounts]
  obtain ⟨state, hstate⟩ :=
    exists_applyGenesisAccount (id, amount, pk ++ rest.flatMap accountBytes)
  have hone : applyGenesisAccounts c.merged AccountStore.new = .ok state := by
    unfold applyGenesisAccounts
    rw [hmerged, List.foldlM_cons, hstate]
    rfl
  intro h
  rw [hone] at h
  have hall := @issued_foldlM _ _ state h
  have hfirst := (applyGenesisAccount_eq_ok hstate).2.1
  have hpos : entry.2.1.toNat ≤ (rest.map fun entry => entry.2.1.toNat).sum :=
    List.single_le_sum (fun _ _ => Nat.zero_le _) _ (List.mem_map_of_mem hentry)
  have hentryne : entry.2.1.toNat ≠ 0 := fun hzero => hne (UInt64.toNat_inj.mp hzero)
  rw [haccounts, List.map_cons, List.sum_cons] at hall
  dsimp only at hall hfirst
  omega

theorem sameIdentity_merged {c : GenesisConfig} {genesis : Block}
    (hbuild : buildGenesisBlock P c = .ok genesis) : SameIdentity P c c.merged := by
  have hpreimage := genesisStatePreimage_merged c
  unfold merged at hpreimage ⊢
  split at hpreimage
  · exact sameIdentity_of_preimage_eq hbuild rfl rfl rfl rfl
  · exact sameIdentity_of_preimage_eq hbuild hpreimage rfl rfl rfl

theorem merged_attestation (c : GenesisConfig) : c.merged.attestation = c.attestation := by
  unfold merged
  split
  · rfl
  · rfl

/-! ## What is identified -/

/-- Accounts with keys of the same lengths are told apart by their bytes. -/
theorem accounts_eq_of_bytes {entries entries' : List (ObjectId × FlakeAmount × List UInt8)}
    (hkeys : entries.map (fun entry => entry.2.2.length) =
      entries'.map fun entry => entry.2.2.length)
    (h : entries.flatMap accountBytes = entries'.flatMap accountBytes) : entries = entries' := by
  induction entries generalizing entries' with
  | nil =>
    rw [List.map_nil] at hkeys
    exact (List.map_eq_nil_iff.mp hkeys.symm).symm
  | cons entry entries ih =>
    cases entries' with
    | nil => simp at hkeys
    | cons entry' entries' =>
      obtain ⟨id, amount, pk⟩ := entry
      obtain ⟨id', amount', pk'⟩ := entry'
      rw [List.map_cons, List.map_cons, List.cons.injEq] at hkeys
      obtain ⟨hlength, hkeys⟩ := hkeys
      rw [List.flatMap_cons, List.flatMap_cons] at h
      change id.asBytes ++ beBytes 8 amount.toNat ++ pk ++ entries.flatMap accountBytes =
        id'.asBytes ++ beBytes 8 amount'.toNat ++ pk' ++ entries'.flatMap accountBytes at h
      simp only [List.append_assoc] at h
      have hid : id.asBytes.length = id'.asBytes.length := by
        unfold ObjectId.asBytes
        rw [FixedBytes.length_bytes, FixedBytes.length_bytes]
      obtain ⟨h1, h⟩ := List.append_inj h hid
      obtain ⟨h2, h⟩ := List.append_inj h (by simp)
      obtain ⟨h3, h⟩ := List.append_inj h hlength
      rw [ObjectId.ext (FixedBytes.bytes_injective h1), Codec.beBytes_uint64_inj h2, h3,
        ih hkeys h]

/-- The bytes of the state root, where the lengths of the texts are known. -/
theorem eq_of_preimage {c c' : GenesisConfig} (halign : Aligned c c')
    (h : genesisStatePreimage c = genesisStatePreimage c') :
    c.genesisAccounts = c'.genesisAccounts ∧ c.baseReward = c'.baseReward ∧
      (c.attestation.goldSpotPriceUsdCents = c'.attestation.goldSpotPriceUsdCents →
        c.attestation = c'.attestation) := by
  obtain ⟨difficulty, version, ⟨timestamp, price, production, total, lbma, usgs, wgc, formula⟩,
    accounts, baseReward, ceremony⟩ := c
  obtain ⟨difficulty', version', ⟨timestamp', price', production', total', lbma', usgs', wgc',
    formula'⟩, accounts', baseReward', ceremony'⟩ := c'
  have hbytes (a b : FixedBytes 32) : a.bytes.length = b.bytes.length := by
    rw [a.length_bytes, b.length_bytes]
  unfold genesisStatePreimage at h
  simp only [List.append_assoc] at h
  have h := List.append_cancel_left (List.append_cancel_left h)
  obtain ⟨-, h⟩ := List.append_inj h halign.version
  have h := List.append_cancel_left (List.append_cancel_left (List.append_cancel_left
    (List.append_cancel_left h)))
  obtain ⟨hreward, h⟩ := List.append_inj h (by simp)
  have h := List.append_cancel_left (List.append_cancel_left (List.append_cancel_left
    (List.append_cancel_left (List.append_cancel_left (List.append_cancel_left h)))))
  obtain ⟨htimestamp, h⟩ := List.append_inj h (by simp)
  obtain ⟨hproduction, h⟩ := List.append_inj h (by simp)
  obtain ⟨htotal, h⟩ := List.append_inj h (by simp)
  obtain ⟨hlbma, h⟩ := List.append_inj h (hbytes _ _)
  obtain ⟨husgs, h⟩ := List.append_inj h (hbytes _ _)
  obtain ⟨hwgc, h⟩ := List.append_inj h (hbytes _ _)
  obtain ⟨hformula, haccounts⟩ := List.append_inj h halign.formula
  refine ⟨accounts_eq_of_bytes halign.keys ?_, Codec.beBytes_uint64_inj hreward, ?_⟩
  · unfold accountBytes
    simp only [List.append_assoc]
    exact haccounts
  · intro hprice
    dsimp only at hprice ⊢
    rw [Codec.beBytes_uint64_inj htimestamp, hprice, Codec.beBytes_uint64_inj hproduction,
      Codec.beBytes_uint64_inj htotal, FixedBytes.bytes_injective hlbma,
      FixedBytes.bytes_injective husgs, FixedBytes.bytes_injective hwgc, tag_inj.mp hformula]

/-- What the headers of two genesis blocks with one hash have in common. -/
theorem GenesisConfig.SameIdentity.header {c c' : GenesisConfig} (h : SameIdentity P c c') :
    genesisStatePreimage c = genesisStatePreimage c' ∧
      c.initialDifficulty = c'.initialDifficulty := by
  obtain ⟨genesis, genesis', hbuild, hbuild', hhash, hfree⟩ := h.hash
  have hmessage : blockHashMessage genesis.header = blockHashMessage genesis'.header :=
    hfree _ (Or.inl rfl) _ (Or.inr rfl) hhash
  have hsame := blockHashPreimage_eq_iff.mp (List.append_cancel_left hmessage)
  have hheader {c : GenesisConfig} {genesis : Block}
    (hbuild : buildGenesisBlock P c = .ok genesis) :
      genesis.header.unproved.stateRoot = P.blake3 (genesisStatePreimage c) ∧
        genesis.header.unproved.difficulty = c.initialDifficulty := by
    unfold buildGenesisBlock at hbuild
    obtain ⟨_, -, hbuild⟩ := bind_eq_ok.mp hbuild
    obtain ⟨_, -, hbuild⟩ := bind_eq_ok.mp hbuild
    obtain ⟨_, -, hbuild⟩ := bind_eq_ok.mp hbuild
    cases hbuild
    exact ⟨rfl, rfl⟩
  obtain ⟨hroot, hdifficulty⟩ := hheader hbuild
  obtain ⟨hroot', hdifficulty'⟩ := hheader hbuild'
  rw [hsame] at hroot hdifficulty
  exact ⟨h.state _ (Or.inl rfl) _ (Or.inr rfl) (hroot.symm.trans hroot'),
    hdifficulty.symm.trans hdifficulty'⟩

/-- No genesis hash identifies its configuration: it leaves the gold spot price open, and the
accounts where a later one has a balance. Two configurations of one hash whose texts and keys are
of the same lengths start alike exactly when their gold spot prices are the same. -/
theorem genesis_identity (P : Primitives) {c : GenesisConfig} {genesis : Block}
    (hbuild : buildGenesisBlock P c = .ok genesis) :
    ¬Identified P c ∧
      (∀ first rest, c.genesisAccounts = first :: rest → (∃ entry ∈ rest, entry.2.1 ≠ 0) →
        ∃ c', SameIdentity P c c' ∧ c'.attestation = c.attestation ∧
          applyGenesisAccounts c AccountStore.new ≠ applyGenesisAccounts c' AccountStore.new) ∧
      ∀ c', SameIdentity P c c' → Aligned c c' →
        (SameStart c c' ↔
          c.attestation.goldSpotPriceUsdCents = c'.attestation.goldSpotPriceUsdCents) := by
  refine ⟨fun h => ?_, fun first rest haccounts hrest => ?_, fun c' hidentity halign => ?_⟩
  · exact repriced_ne c (h _ (sameIdentity_repriced hbuild)).attestation
  · exact ⟨c.merged, sameIdentity_merged hbuild, merged_attestation c,
      applyGenesisAccounts_merged haccounts hrest⟩
  · obtain ⟨hpreimage, hdifficulty⟩ := hidentity.header
    obtain ⟨haccounts, hreward, hattestation⟩ := eq_of_preimage halign hpreimage
    constructor
    · intro hstart
      rw [hstart.attestation]
    · intro hprice
      refine ⟨?_, hreward, hdifficulty, hattestation hprice⟩
      unfold applyGenesisAccounts
      rw [haccounts]

namespace Reference

/-- Two accounts with a balance. -/
def pair : GenesisConfig := config [(1, 500), (2, 700)]

theorem buildGenesisBlock_pair : ∃ genesis, buildGenesisBlock primitives pair = .ok genesis := by
  have h : (buildGenesisBlock primitives pair).toOption.isSome = true := by decide +kernel
  cases hbuild : buildGenesisBlock primitives pair with
  | error e =>
    rw [hbuild] at h
    cases h
  | ok genesis => exact ⟨genesis, rfl⟩

end Reference

open Reference

theorem genesis_identity_of_reference : ¬Identified primitives pair := by
  obtain ⟨genesis, hbuild⟩ := buildGenesisBlock_pair
  exact (genesis_identity primitives hbuild).1

/-- Another gold spot price has the same genesis hash, and so has a single account with the second
one in its key, which starts from another ledger. -/
theorem genesis_hash_shared :
    SameIdentity primitives pair pair.repriced ∧ ¬SameStart pair pair.repriced ∧
      SameIdentity primitives pair pair.merged ∧
      (applyGenesisAccounts pair AccountStore.new).map Prod.snd = .ok 1200 ∧
      (applyGenesisAccounts pair.merged AccountStore.new).map Prod.snd = .ok 500 := by
  obtain ⟨genesis, hbuild⟩ := buildGenesisBlock_pair
  exact ⟨sameIdentity_repriced hbuild, fun h => repriced_ne pair h.attestation,
    sameIdentity_merged hbuild, by decide +kernel, by decide +kernel⟩

end Opolys
