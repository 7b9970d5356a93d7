import Mathlib.Order.Std
import Mathlib.Tactic.Common
import Mathlib.Data.Prod.Basic
import Mathlib.Data.List.Basic
import Mathlib.Tactic.Ring

/-!
# Byte encodings that can be told apart

Two encodings are used by programs that hash or sign structured data: integers written
out as a fixed number of bytes, least or most significant first, and the Borsh format,
where a vector is its length in four bytes followed by its items, an option is a tag
byte followed by the value, and a record is its fields in order.

What a proof needs of them is that nothing else could have produced the same bytes. For
the integers this is `leBytes_inj` and `beBytes_inj`. For Borsh the law is stated with
what follows: `Borsh.encode_append_inj` says that two values with equal encodings, each
followed by anything, are equal and are followed by the same bytes. This form composes
over fields, items and options without any remark about lengths.
-/

namespace Codec

/-! ## Integers -/

/-- The `n` least significant bytes of `x`, least significant first. -/
def leBytes : ℕ → ℕ → List UInt8
  | 0, _ => []
  | n + 1, x => UInt8.ofNat x :: leBytes n (x / 256)

/-- The `n` least significant bytes of `x`, most significant first. -/
def beBytes (n x : ℕ) : List UInt8 := (leBytes n x).reverse

/-- The number a list of bytes denotes, least significant first. -/
def ofLeBytes : List UInt8 → ℕ
  | [] => 0
  | b :: bs => b.toNat + 256 * ofLeBytes bs

/-- The number a list of bytes denotes, most significant first. -/
def ofBeBytes (bs : List UInt8) : ℕ := ofLeBytes bs.reverse

@[simp] theorem length_leBytes (n x : ℕ) : (leBytes n x).length = n := by
  induction n generalizing x with
  | zero => rfl
  | succ n ih => simp [leBytes, ih]

@[simp] theorem length_beBytes (n x : ℕ) : (beBytes n x).length = n := by
  simp [beBytes]

theorem ofLeBytes_leBytes (n x : ℕ) : ofLeBytes (leBytes n x) = x % 256 ^ n := by
  induction n generalizing x with
  | zero => simp [leBytes, ofLeBytes, Nat.mod_one]
  | succ n ih =>
    have hb : (UInt8.ofNat x).toNat = x % 256 := UInt8.toNat_ofNat'
    rw [leBytes, ofLeBytes, ih, hb, Nat.pow_succ', Nat.mod_mul]

theorem ofLeBytes_lt (bs : List UInt8) : ofLeBytes bs < 256 ^ bs.length := by
  induction bs with
  | nil => simp [ofLeBytes]
  | cons b bs ih =>
    have hb := b.toNat_lt
    rw [ofLeBytes, List.length_cons, Nat.pow_succ']
    omega

theorem ofLeBytes_append (bs cs : List UInt8) :
    ofLeBytes (bs ++ cs) = ofLeBytes bs + 256 ^ bs.length * ofLeBytes cs := by
  induction bs with
  | nil => simp [ofLeBytes]
  | cons b bs ih =>
    rw [List.cons_append, ofLeBytes, ih, ofLeBytes, List.length_cons]
    ring

theorem ofBeBytes_cons (b : UInt8) (bs : List UInt8) :
    ofBeBytes (b :: bs) = b.toNat * 256 ^ bs.length + ofBeBytes bs := by
  rw [ofBeBytes, List.reverse_cons, ofLeBytes_append, ofBeBytes, List.length_reverse]
  simp only [ofLeBytes]
  ring

theorem ofBeBytes_lt (bs : List UInt8) : ofBeBytes bs < 256 ^ bs.length := by
  have h := ofLeBytes_lt bs.reverse
  rwa [List.length_reverse] at h

/-- An integer that fits is determined by its bytes. -/
theorem leBytes_inj {n x y : ℕ} (hx : x < 256 ^ n) (hy : y < 256 ^ n)
    (h : leBytes n x = leBytes n y) : x = y := by
  have he := congrArg ofLeBytes h
  rwa [ofLeBytes_leBytes, ofLeBytes_leBytes, Nat.mod_eq_of_lt hx, Nat.mod_eq_of_lt hy] at he

theorem beBytes_inj {n x y : ℕ} (hx : x < 256 ^ n) (hy : y < 256 ^ n)
    (h : beBytes n x = beBytes n y) : x = y :=
  leBytes_inj hx hy (List.reverse_injective h)

theorem leBytes_uint32_inj {x y : UInt32} (h : leBytes 4 x.toNat = leBytes 4 y.toNat) : x = y :=
  UInt32.toNat_inj.mp (leBytes_inj x.toNat_lt y.toNat_lt h)

theorem leBytes_uint64_inj {x y : UInt64} (h : leBytes 8 x.toNat = leBytes 8 y.toNat) : x = y :=
  UInt64.toNat_inj.mp (leBytes_inj x.toNat_lt y.toNat_lt h)

theorem beBytes_uint32_inj {x y : UInt32} (h : beBytes 4 x.toNat = beBytes 4 y.toNat) : x = y :=
  UInt32.toNat_inj.mp (beBytes_inj x.toNat_lt y.toNat_lt h)

theorem beBytes_uint64_inj {x y : UInt64} (h : beBytes 8 x.toNat = beBytes 8 y.toNat) : x = y :=
  UInt64.toNat_inj.mp (beBytes_inj x.toNat_lt y.toNat_lt h)

/-- Prefixes that differ early keep apart whatever follows them. -/
theorem append_ne_of_take_ne {n : ℕ} {a b s t : List UInt8} (ha : n ≤ a.length)
    (hb : n ≤ b.length) (h : a.take n ≠ b.take n) : a ++ s ≠ b ++ t := by
  intro he
  have htake := congrArg (List.take n) he
  rw [List.take_append_of_le_length ha, List.take_append_of_le_length hb] at htake
  exact h htake

/-! ## Byte arrays of a fixed length -/

/-- An array of exactly `n` bytes. -/
@[ext] structure FixedBytes (n : ℕ) where
  /-- The bytes in order. -/
  bytes : List UInt8
  /-- There are `n` of them. -/
  length_bytes : bytes.length = n
deriving DecidableEq

namespace FixedBytes

variable {n : ℕ}

/-- The array that holds `b` everywhere. -/
def fill (n : ℕ) (b : UInt8) : FixedBytes n := ⟨List.replicate n b, List.length_replicate⟩

/-- The bytes as an array, when there are `n` of them. -/
def ofList? (n : ℕ) (bs : List UInt8) : Option (FixedBytes n) :=
  if h : bs.length = n then some ⟨bs, h⟩ else none

theorem bytes_of_ofList? {bs : List UInt8} {a : FixedBytes n} (h : ofList? n bs = some a) :
    a.bytes = bs := by
  unfold ofList? at h
  split at h
  · cases h
    rfl
  · cases h

@[simp] theorem ofList?_bytes (a : FixedBytes n) : ofList? n a.bytes = some a :=
  dif_pos a.length_bytes

theorem ofList?_eq_some {bs : List UInt8} {a : FixedBytes n} :
    ofList? n bs = some a ↔ bs = a.bytes := by
  constructor
  · intro h
    exact (bytes_of_ofList? h).symm
  · rintro rfl
    exact ofList?_bytes a

theorem bytes_injective : Function.Injective (bytes (n := n)) := fun _ _ h => FixedBytes.ext h

/-- Arrays are compared byte by byte from the front. -/
instance : Ord (FixedBytes n) := ⟨fun a b => compare a.bytes b.bytes⟩

instance : Std.TransOrd (FixedBytes n) := inferInstanceAs (Std.TransCmp (compareOn bytes))

instance : Std.LawfulEqOrd (FixedBytes n) where
  eq_of_compare {_ _} h := bytes_injective (Std.LawfulEqOrd.compare_eq_iff_eq.mp h)

end FixedBytes

/-! ## Borsh -/

/-- The Borsh format of a type: the bytes of a value, whether every vector in the value
is short enough for its length field, and the law that makes encodings distinguishable. -/
class Borsh (α : Type*) where
  /-- The bytes of a value. -/
  encode : α → List UInt8
  /-- Every vector inside fits its four-byte length. -/
  fits : α → Bool
  /-- Equal bytes, each followed by anything, come from equal values. -/
  encode_append_inj : ∀ {a b : α} {s t : List UInt8}, fits a = true → fits b = true →
    encode a ++ s = encode b ++ t → a = b ∧ s = t

namespace Borsh

variable {α β : Type*}

/-- The bytes of a value, or `none` where a vector is too long for its length field. -/
def toVec [Borsh α] (a : α) : Option (List UInt8) :=
  if fits a then some (encode a) else none

theorem encode_inj [Borsh α] {a b : α} (ha : fits a = true) (hb : fits b = true)
    (h : encode a = encode b) : a = b :=
  (encode_append_inj (s := []) (t := []) ha hb (by rw [h])).1

theorem toVec_eq_some [Borsh α] {a : α} {bs : List UInt8} :
    toVec a = some bs ↔ fits a = true ∧ encode a = bs := by
  unfold toVec
  split <;> simp_all

theorem toVec_inj [Borsh α] {a b : α} {bs : List UInt8} (ha : toVec a = some bs)
    (hb : toVec b = some bs) : a = b := by
  obtain ⟨hfa, rfl⟩ := toVec_eq_some.mp ha
  obtain ⟨hfb, he⟩ := toVec_eq_some.mp hb
  exact encode_inj hfa hfb he.symm

/-- A fixed number of bytes is told apart from what follows by its length. -/
theorem append_inj_of_length {f : α → List UInt8} (hlen : ∀ a b, (f a).length = (f b).length)
    (hinj : Function.Injective f) {a b : α} {s t : List UInt8} (h : f a ++ s = f b ++ t) :
    a = b ∧ s = t := by
  obtain ⟨hab, hst⟩ := List.append_inj h (hlen a b)
  exact ⟨hinj hab, hst⟩

instance : Borsh UInt8 where
  encode x := [x]
  fits _ := true
  encode_append_inj _ _ h := append_inj_of_length (fun _ _ => rfl) List.singleton_injective h

instance : Borsh UInt32 where
  encode x := leBytes 4 x.toNat
  fits _ := true
  encode_append_inj _ _ h := append_inj_of_length (by simp) (fun _ _ => leBytes_uint32_inj) h

instance : Borsh UInt64 where
  encode x := leBytes 8 x.toNat
  fits _ := true
  encode_append_inj _ _ h := append_inj_of_length (by simp) (fun _ _ => leBytes_uint64_inj) h

instance {n : ℕ} : Borsh (FixedBytes n) where
  encode x := x.bytes
  fits _ := true
  encode_append_inj _ _ h :=
    append_inj_of_length (fun a b => by rw [a.length_bytes, b.length_bytes])
      FixedBytes.bytes_injective h

instance [Borsh α] [Borsh β] : Borsh (α × β) where
  encode p := encode p.1 ++ encode p.2
  fits p := fits p.1 && fits p.2
  encode_append_inj {p q s t} hp hq h := by
    rw [Bool.and_eq_true] at hp hq
    rw [List.append_assoc, List.append_assoc] at h
    obtain ⟨h1, h⟩ := encode_append_inj hp.1 hq.1 h
    obtain ⟨h2, h⟩ := encode_append_inj hp.2 hq.2 h
    exact ⟨Prod.ext h1 h2, h⟩

instance [Borsh α] : Borsh (Option α) where
  encode
    | none => [0]
    | some a => 1 :: encode a
  fits
    | none => true
    | some a => fits a
  encode_append_inj {a b s t} ha hb h := by
    cases a with
    | none =>
      cases b with
      | none => exact ⟨rfl, (List.cons.inj h).2⟩
      | some b => exact absurd (List.cons.inj h).1 (by decide)
    | some a =>
      cases b with
      | none => exact absurd (List.cons.inj h).1 (by decide)
      | some b =>
        obtain ⟨he, hst⟩ := encode_append_inj ha hb (List.cons.inj h).2
        exact ⟨congrArg some he, hst⟩

/-- The items of a vector one after the other. -/
def encodeItems [Borsh α] (xs : List α) : List UInt8 := xs.flatMap encode

theorem encodeItems_cons [Borsh α] (x : α) (xs : List α) :
    encodeItems (x :: xs) = encode x ++ encodeItems xs := List.flatMap_cons

theorem encodeItems_append_inj [Borsh α] {xs ys : List α} {s t : List UInt8}
    (hlen : xs.length = ys.length) (hx : xs.all fits = true) (hy : ys.all fits = true)
    (h : encodeItems xs ++ s = encodeItems ys ++ t) : xs = ys ∧ s = t := by
  induction xs generalizing ys with
  | nil =>
    obtain rfl := List.length_eq_zero_iff.mp hlen.symm
    exact ⟨rfl, h⟩
  | cons x xs ih =>
    cases ys with
    | nil => cases hlen
    | cons y ys =>
      rw [List.all_cons, Bool.and_eq_true] at hx hy
      rw [encodeItems_cons, encodeItems_cons, List.append_assoc, List.append_assoc] at h
      obtain ⟨hxy, htail⟩ := encode_append_inj hx.1 hy.1 h
      obtain ⟨hxs, hst⟩ := ih (Nat.succ.inj hlen) hx.2 hy.2 htail
      exact ⟨congrArg₂ List.cons hxy hxs, hst⟩

/-- Items that are never empty need no count, when nothing follows them. -/
theorem encodeItems_inj [Borsh α] (hne : ∀ a : α, encode a ≠ []) {xs ys : List α}
    (hx : xs.all fits = true) (hy : ys.all fits = true)
    (h : encodeItems xs = encodeItems ys) : xs = ys := by
  induction xs generalizing ys with
  | nil =>
    cases ys with
    | nil => rfl
    | cons y ys =>
      rw [encodeItems_cons] at h
      exact absurd (List.append_eq_nil_iff.mp h.symm).1 (hne y)
  | cons x xs ih =>
    cases ys with
    | nil =>
      rw [encodeItems_cons] at h
      exact absurd (List.append_eq_nil_iff.mp h).1 (hne x)
    | cons y ys =>
      rw [List.all_cons, Bool.and_eq_true] at hx hy
      rw [encodeItems_cons, encodeItems_cons] at h
      obtain ⟨hxy, htail⟩ := encode_append_inj hx.1 hy.1 h
      exact congrArg₂ List.cons hxy (ih hx.2 hy.2 htail)

section References

variable {κ : Type*} [Borsh α] [Borsh β] {name : α → κ} {target : β → κ}

/-- References to the names seen so far do not begin like a record of a new name. -/
theorem encode_append_ne_encodeItems
    (hname : ∀ {a : α} {b : β} {s t : List UInt8}, encode a ++ s = encode b ++ t →
      name a = target b)
    (hne : ∀ a : α, encode a ≠ []) {seen : List κ} {x : α} {ys : List β}
    (hx : name x ∉ seen) (hys : ∀ y ∈ ys, target y ∈ seen) (s : List UInt8) :
    encode x ++ s ≠ encodeItems ys := by
  intro h
  cases ys with
  | nil => exact hne x (List.append_eq_nil_iff.mp h).1
  | cons y ys =>
    rw [encodeItems_cons] at h
    have hxy := hname h
    rw [hxy] at hx
    exact hx (hys y List.mem_cons_self)

/-- Records of distinct names and references to them can be told apart, although they are
written one after the other without a count or a separator. -/
theorem encodeItems_references_inj
    (hname : ∀ {a : α} {b : β} {s t : List UInt8}, encode a ++ s = encode b ++ t →
      name a = target b)
    (hne : ∀ a : α, encode a ≠ []) (hne' : ∀ b : β, encode b ≠ []) {seen : List κ}
    {xs xs' : List α} {ys ys' : List β}
    (hnd : (seen ++ xs.map name).Nodup) (hnd' : (seen ++ xs'.map name).Nodup)
    (hys : ∀ y ∈ ys, target y ∈ seen ++ xs.map name)
    (hys' : ∀ y ∈ ys', target y ∈ seen ++ xs'.map name)
    (hfx : xs.all fits = true) (hfx' : xs'.all fits = true)
    (hfy : ys.all fits = true) (hfy' : ys'.all fits = true)
    (h : encodeItems xs ++ encodeItems ys = encodeItems xs' ++ encodeItems ys') :
    xs = xs' ∧ ys = ys' := by
  have hfresh {seen : List κ} {x : α} {zs : List α} (hnd : (seen ++ (x :: zs).map name).Nodup) :
      name x ∉ seen := fun hmem =>
    (List.nodup_append.mp hnd).2.2 _ hmem _ (List.mem_map_of_mem List.mem_cons_self) rfl
  induction xs generalizing seen xs' with
  | nil =>
    cases xs' with
    | nil => exact ⟨rfl, encodeItems_inj hne' hfy hfy' h⟩
    | cons x' xs' =>
      rw [encodeItems_cons, List.append_assoc] at h
      rw [List.map_nil, List.append_nil] at hys
      exact absurd h.symm (encode_append_ne_encodeItems hname hne (hfresh hnd') hys _)
  | cons x xs ih =>
    cases xs' with
    | nil =>
      rw [encodeItems_cons, List.append_assoc] at h
      rw [List.map_nil, List.append_nil] at hys'
      exact absurd h (encode_append_ne_encodeItems hname hne (hfresh hnd) hys' _)
    | cons x' xs' =>
      rw [List.all_cons, Bool.and_eq_true] at hfx hfx'
      rw [encodeItems_cons, encodeItems_cons, List.append_assoc, List.append_assoc] at h
      obtain ⟨rfl, htail⟩ := encode_append_inj hfx.1 hfx'.1 h
      rw [List.map_cons, List.append_cons] at hnd hnd' hys hys'
      obtain ⟨hxs, hyys⟩ := ih hnd hnd' hys hys' hfx.2 hfx'.2 htail
      exact ⟨congrArg (List.cons x) hxs, hyys⟩

end References

instance [Borsh α] : Borsh (List α) where
  encode xs := leBytes 4 xs.length ++ encodeItems xs
  fits xs := decide (xs.length < 2 ^ 32) && xs.all fits
  encode_append_inj {xs ys s t} hx hy h := by
    rw [Bool.and_eq_true, decide_eq_true_eq] at hx hy
    rw [List.append_assoc, List.append_assoc] at h
    obtain ⟨hlen, h⟩ := List.append_inj h (by simp)
    exact encodeItems_append_inj (leBytes_inj hx.1 hy.1 hlen) hx.2 hy.2 h

theorem fits_list [Borsh α] {xs : List α} :
    fits xs = true ↔ xs.length < 2 ^ 32 ∧ ∀ x ∈ xs, fits x = true := by
  change (decide (xs.length < 2 ^ 32) && xs.all fits) = true ↔ _
  rw [Bool.and_eq_true, decide_eq_true_eq, List.all_eq_true]

/-- Whether a list fits does not depend on its order. -/
theorem fits_eq_of_perm [Borsh α] {xs ys : List α} (h : xs.Perm ys) : fits xs = fits ys := by
  change (decide (xs.length < 2 ^ 32) && xs.all fits) = (decide (ys.length < 2 ^ 32) && ys.all fits)
  rw [h.length_eq, h.all_eq]

/-- A record is encoded as the tuple of its fields. -/
@[reducible] def ofFields [Borsh β] (fields : α → β) (hf : Function.Injective fields) :
    Borsh α where
  encode a := encode (fields a)
  fits a := fits (fields a)
  encode_append_inj ha hb h := by
    obtain ⟨he, hst⟩ := encode_append_inj ha hb h
    exact ⟨hf he, hst⟩

end Borsh

end Codec
