import Mathlib.Data.List.Basic
import Mathlib.Tactic.Ring

/-!
# Text by byte offsets

A text is a list of characters, each of which takes one to four bytes. Offsets count bytes, and a
slice has a result only where both its ends are boundaries of characters inside the text.
-/

namespace Utf8

/-- The number of bytes. -/
def size (cs : List Char) : ℕ := (cs.map Char.utf8Size).sum

@[simp] theorem size_nil : size [] = 0 := rfl

@[simp] theorem size_cons (c : Char) (cs : List Char) : size (c :: cs) = c.utf8Size + size cs :=
  rfl

@[simp] theorem size_append (cs ds : List Char) : size (cs ++ ds) = size cs + size ds := by
  induction cs with
  | nil => simp
  | cons c cs ih => simp [ih, Nat.add_assoc]

theorem length_le_size (cs : List Char) : cs.length ≤ size cs := by
  induction cs with
  | nil => simp
  | cons c cs ih =>
    have hpos := c.utf8Size_pos
    simp
    omega

/-- Characters of one byte. -/
theorem size_of_ascii {cs : List Char} (h : ∀ c ∈ cs, c.utf8Size = 1) : size cs = cs.length := by
  induction cs with
  | nil => rfl
  | cons c cs ih =>
    obtain ⟨hc, hcs⟩ := List.forall_mem_cons.mp h
    simp [hc, ih hcs]
    omega

/-! ## Slices -/

/-- The two parts at an offset. -/
def splitAt : List Char → ℕ → Option (List Char × List Char)
  | cs, 0 => some ([], cs)
  | [], _ + 1 => none
  | c :: cs, n + 1 =>
    if c.utf8Size ≤ n + 1 then
      (splitAt cs (n + 1 - c.utf8Size)).map fun parts => (c :: parts.1, parts.2)
    else none

/-- An offset between two characters, or at an end. -/
def IsBoundary (cs : List Char) (n : ℕ) : Prop := ∃ front back, cs = front ++ back ∧ size front = n

/-- The text between two offsets. -/
def slice (cs : List Char) (first last : ℕ) : Option (List Char) :=
  if first ≤ last then
    match splitAt cs first with
    | some (_, back) => (splitAt back (last - first)).map Prod.fst
    | none => none
  else none

@[simp] theorem splitAt_zero (cs : List Char) : splitAt cs 0 = some ([], cs) := by
  cases cs <;> rfl

theorem size_eq_zero {cs : List Char} (h : size cs = 0) : cs = [] := by
  apply List.length_eq_zero_iff.mp
  have hle := length_le_size cs
  omega

theorem splitAt_eq_some {n : ℕ} {cs front back : List Char} :
    splitAt cs n = some (front, back) ↔ cs = front ++ back ∧ size front = n := by
  induction cs generalizing n front with
  | nil =>
    cases n with
    | zero =>
      simp
      rintro rfl -
      exact size_nil
    | succ n =>
      simp [splitAt]
      rintro rfl -
      simp
  | cons c cs ih =>
    cases n with
    | zero =>
      rw [splitAt_zero]
      constructor
      · intro h
        cases h
        simp
      · rintro ⟨hsplit, hsize⟩
        obtain rfl := size_eq_zero hsize
        rw [hsplit, List.nil_append]
    | succ n =>
      have hpos := c.utf8Size_pos
      unfold splitAt
      constructor
      · intro h
        split at h
        · obtain ⟨⟨first, rest⟩, hrest, hparts⟩ := Option.map_eq_some_iff.mp h
          cases hparts
          obtain ⟨rfl, hsize⟩ := ih.mp hrest
          refine ⟨rfl, ?_⟩
          show c.utf8Size + size first = n + 1
          omega
        · cases h
      · rintro ⟨hsplit, hsize⟩
        cases front with
        | nil => simp at hsize
        | cons d front =>
          cases hsplit
          rw [size_cons] at hsize
          have hrest : splitAt (front.append back) (n + 1 - c.utf8Size) = some (front, back) :=
            ih.mpr ⟨rfl, by omega⟩
          rw [if_pos (by omega), hrest]
          rfl

theorem exists_splitAt_iff {cs : List Char} {n : ℕ} :
    (∃ parts, splitAt cs n = some parts) ↔ IsBoundary cs n := by
  constructor
  · rintro ⟨⟨front, back⟩, h⟩
    exact ⟨front, back, splitAt_eq_some.mp h⟩
  · rintro ⟨front, back, h⟩
    exact ⟨(front, back), splitAt_eq_some.mpr h⟩

theorem isBoundary_zero (cs : List Char) : IsBoundary cs 0 := ⟨[], cs, rfl, rfl⟩

theorem IsBoundary.le_size {cs : List Char} {n : ℕ} (h : IsBoundary cs n) : n ≤ size cs := by
  obtain ⟨front, back, rfl, rfl⟩ := h
  simp

/-- Where all characters are single bytes, every offset up to the end is a boundary. -/
theorem isBoundary_of_ascii {cs : List Char} (h : ∀ c ∈ cs, c.utf8Size = 1) {n : ℕ}
    (hn : n ≤ size cs) : IsBoundary cs n := by
  rw [size_of_ascii h] at hn
  refine ⟨cs.take n, cs.drop n, (List.take_append_drop n cs).symm, ?_⟩
  rw [size_of_ascii fun c hc => h c (List.mem_of_mem_take hc), List.length_take]
  omega

/-- Behind a boundary, the boundaries are those of the rest. -/
theorem isBoundary_append_iff {front back : List Char} {n : ℕ} (h : size front ≤ n) :
    IsBoundary (front ++ back) n ↔ IsBoundary back (n - size front) := by
  constructor
  · rintro ⟨front', back', hsplit, rfl⟩
    rcases List.append_eq_append_iff.mp hsplit with ⟨middle, rfl, rfl⟩ | ⟨middle, rfl, rfl⟩
    · exact ⟨middle, back', rfl, by simp⟩
    · rw [size_append] at h
      have hempty : middle = [] := size_eq_zero (by omega)
      subst hempty
      exact ⟨[], back, by simp, by simp⟩
  · rintro ⟨middle, back', rfl, hsize⟩
    refine ⟨front ++ middle, back', (List.append_assoc _ _ _).symm, ?_⟩
    rw [size_append]
    omega

/-- A slice is taken exactly between two boundaries. -/
theorem exists_slice_iff {cs : List Char} {first last : ℕ} :
    (∃ window, slice cs first last = some window) ↔
      first ≤ last ∧ IsBoundary cs first ∧ IsBoundary cs last := by
  unfold slice
  by_cases hle : first ≤ last
  · rw [if_pos hle]
    cases hsplit : splitAt cs first with
    | none =>
      have hnot : ¬IsBoundary cs first := by
        rw [← exists_splitAt_iff, hsplit]
        simp
      simp [hnot]
    | some parts =>
      obtain ⟨front, back⟩ := parts
      obtain ⟨rfl, rfl⟩ := splitAt_eq_some.mp hsplit
      have hfirst : IsBoundary (front ++ back) (size front) := ⟨front, back, rfl, rfl⟩
      have hmap : (∃ window, (splitAt back (last - size front)).map Prod.fst = some window) ↔
          ∃ parts, splitAt back (last - size front) = some parts := by
        cases splitAt back (last - size front) <;> simp
      rw [isBoundary_append_iff hle, ← @exists_splitAt_iff back]
      show (∃ window, (splitAt back (last - size front)).map Prod.fst = some window) ↔ _
      rw [hmap]
      exact ⟨fun h => ⟨hle, hfirst, h⟩, fun h => h.2.2⟩
  · rw [if_neg hle]
    simp [hle]

/-! ## Bytes -/

/-- The bytes of a text. -/
def bytes (cs : List Char) : List UInt8 := cs.flatMap String.utf8EncodeChar

/-- The bytes that go on with a character. -/
def IsContinuation (b : UInt8) : Prop := 0x80 ≤ b ∧ b < 0xC0

/-- The byte at an offset goes on with a character that has begun before it. -/
def CutsAt (cs : List Char) (n : ℕ) : Prop := ∃ b, (bytes cs)[n]? = some b ∧ IsContinuation b

theorem length_bytes (cs : List Char) : (bytes cs).length = size cs := by
  rw [bytes, List.length_flatMap]
  exact congrArg List.sum (List.map_congr_left fun c _ => String.length_utf8EncodeChar c)

/-- Behind the end no character goes on. -/
theorem cutsAt_min (cs : List Char) (n : ℕ) : CutsAt cs (min n (size cs)) ↔ CutsAt cs n := by
  rcases Nat.lt_or_ge n (size cs) with hlt | hle
  · rw [Nat.min_eq_left hlt.le]
  · unfold CutsAt
    rw [Nat.min_eq_right hle, List.getElem?_eq_none (length_bytes cs).le,
      List.getElem?_eq_none ((length_bytes cs).trans_le hle)]

theorem isContinuation_tail (x : UInt8) : IsContinuation (x &&& 0x3f ||| 0x80) := by
  have hlow : (0x80 : UInt8).toNat = 128 := rfl
  have hhigh : (0xC0 : UInt8).toNat = 192 := rfl
  have hmask : (0x3f : UInt8).toNat = 2 ^ 6 - 1 := rfl
  have hor : 128 + x.toNat % 2 ^ 6 = 128 ||| x.toNat % 2 ^ 6 :=
    Nat.two_pow_add_eq_or_of_lt (i := 7) (by omega) 1
  unfold IsContinuation
  rw [UInt8.le_iff_toNat_le, UInt8.lt_iff_toNat_lt, UInt8.toNat_or, UInt8.toNat_and, hlow, hhigh,
    hmask, Nat.and_two_pow_sub_one_eq_mod, Nat.or_comm, ← hor]
  omega

theorem not_isContinuation_or (x : UInt8) {mark : UInt8} (h : 0xC0 ≤ mark) :
    ¬IsContinuation (x ||| mark) := by
  have hle := Nat.right_le_or (n := x.toNat) (m := mark.toNat)
  rw [UInt8.le_iff_toNat_le] at h
  unfold IsContinuation
  rw [UInt8.lt_iff_toNat_lt, UInt8.toNat_or]
  omega

/-- A character begins with a byte that goes on with nothing, and the others go on with it. -/
theorem utf8EncodeChar_eq_cons (c : Char) : ∃ first rest,
    String.utf8EncodeChar c = first :: rest ∧ ¬IsContinuation first ∧
      ∀ b ∈ rest, IsContinuation b := by
  rcases c.utf8Size_eq with h | h | h | h
  · refine ⟨_, _, String.utf8EncodeChar_eq_singleton h, ?_, nofun⟩
    have hsmall := Char.utf8Size_eq_one_iff.mp h
    have hbound : (0x7f : UInt32).toNat = 127 := rfl
    have hlow : (0x80 : UInt8).toNat = 128 := rfl
    rw [UInt32.le_iff_toNat_le, hbound] at hsmall
    rintro ⟨hle, -⟩
    rw [UInt8.le_iff_toNat_le, UInt32.toNat_toUInt8, hlow] at hle
    omega
  · refine ⟨_, _, String.utf8EncodeChar_eq_cons_cons h, not_isContinuation_or _ (by decide), ?_⟩
    intro b hb
    obtain rfl := List.mem_singleton.mp hb
    exact isContinuation_tail _
  · refine ⟨_, _, String.utf8EncodeChar_eq_cons_cons_cons h, not_isContinuation_or _ (by decide),
      ?_⟩
    intro b hb
    simp only [List.mem_cons, List.not_mem_nil, or_false] at hb
    rcases hb with rfl | rfl <;> exact isContinuation_tail _
  · refine ⟨_, _, String.utf8EncodeChar_eq_cons_cons_cons_cons h,
      not_isContinuation_or _ (by decide), ?_⟩
    intro b hb
    simp only [List.mem_cons, List.not_mem_nil, or_false] at hb
    rcases hb with rfl | rfl | rfl <;> exact isContinuation_tail _

theorem bytes_cons (c : Char) (cs : List Char) :
    bytes (c :: cs) = String.utf8EncodeChar c ++ bytes cs := rfl

/-- No character goes on at the beginning. -/
theorem not_cutsAt_zero (cs : List Char) : ¬CutsAt cs 0 := by
  rintro ⟨b, hb, hcontinues⟩
  cases cs with
  | nil => cases hb
  | cons c cs =>
    obtain ⟨first, rest, hencode, hfirst, -⟩ := utf8EncodeChar_eq_cons c
    rw [bytes_cons, hencode] at hb
    cases hb
    exact hfirst hcontinues

/-- The first character goes on at every later offset within its size. -/
theorem cutsAt_cons_of_lt {c : Char} {cs : List Char} {n : ℕ} (hpos : 0 < n)
    (hlt : n < c.utf8Size) : CutsAt (c :: cs) n := by
  obtain ⟨first, rest, hencode, -, hrest⟩ := utf8EncodeChar_eq_cons c
  have hlength : rest.length + 1 = c.utf8Size := by
    rw [← String.length_utf8EncodeChar c, hencode, List.length_cons]
  obtain ⟨m, rfl⟩ := Nat.exists_eq_add_one_of_ne_zero hpos.ne'
  have hget : m < rest.length := by omega
  refine ⟨rest[m], ?_, hrest _ (List.getElem_mem hget)⟩
  rw [bytes_cons, hencode, List.cons_append, List.getElem?_cons_succ,
    List.getElem?_append_left hget, List.getElem?_eq_getElem hget]

/-- Behind the first character it is the others that go on. -/
theorem cutsAt_cons_of_le {c : Char} {cs : List Char} {n : ℕ} (hle : c.utf8Size ≤ n) :
    CutsAt (c :: cs) n ↔ CutsAt cs (n - c.utf8Size) := by
  have hlength := String.length_utf8EncodeChar c
  unfold CutsAt
  rw [bytes_cons, List.getElem?_append_right (by omega), hlength]

/-- No boundary lies within the first character. -/
theorem not_isBoundary_cons {c : Char} {cs : List Char} {n : ℕ} (hpos : 0 < n)
    (hlt : n < c.utf8Size) : ¬IsBoundary (c :: cs) n := by
  rintro ⟨front, back, hsplit, hsize⟩
  cases front with
  | nil =>
    rw [size_nil] at hsize
    omega
  | cons d front =>
    cases hsplit
    rw [size_cons] at hsize
    omega

/-- An offset is a boundary exactly when it is not behind the end and no character goes on
there. -/
theorem isBoundary_iff {cs : List Char} {n : ℕ} :
    IsBoundary cs n ↔ n ≤ size cs ∧ ¬CutsAt cs n := by
  induction cs generalizing n with
  | nil =>
    refine ⟨fun h => ⟨h.le_size, ?_⟩, ?_⟩
    · rintro ⟨b, hb, -⟩
      cases hb
    · rintro ⟨hle, -⟩
      obtain rfl : n = 0 := Nat.le_zero.mp hle
      exact isBoundary_zero []
  | cons c cs ih =>
    rcases Nat.eq_zero_or_pos n with rfl | hpos
    · exact iff_of_true (isBoundary_zero _) ⟨Nat.zero_le _, not_cutsAt_zero _⟩
    rcases Nat.lt_or_ge n c.utf8Size with hlt | hle
    · exact iff_of_false (not_isBoundary_cons hpos hlt) fun h => h.2 (cutsAt_cons_of_lt hpos hlt)
    · have hsize : size [c] = c.utf8Size := Nat.add_zero _
      have hback : IsBoundary ([c] ++ cs) n ↔ IsBoundary cs (n - size [c]) :=
        isBoundary_append_iff (by omega)
      rw [cutsAt_cons_of_le hle, size_cons, ← List.singleton_append, hback, hsize, ih]
      refine and_congr_left fun _ => ?_
      omega

/-- No character of a single byte goes on anywhere. -/
theorem not_cutsAt_of_ascii {cs : List Char} (h : ∀ c ∈ cs, c.utf8Size = 1) (n : ℕ) :
    ¬CutsAt cs n := by
  intro hcuts
  rcases Nat.lt_or_ge (size cs) n with hlt | hle
  · obtain ⟨b, hb, -⟩ := hcuts
    rw [List.getElem?_eq_none ((length_bytes cs).trans_le hlt.le)] at hb
    cases hb
  · exact (isBoundary_iff.mp (isBoundary_of_ascii h hle)).2 hcuts

/-! ## Searching -/

/-- The offset of the first place where `pattern` stands. -/
def find (pattern : List Char) : List Char → Option ℕ
  | [] => if pattern = [] then some 0 else none
  | c :: cs =>
    if pattern.isPrefixOf (c :: cs) then some 0 else (find pattern cs).map (c.utf8Size + ·)

/-- What is found lies inside the text. -/
theorem find_add_size_le {pattern cs : List Char} {n : ℕ} (h : find pattern cs = some n) :
    n + size pattern ≤ size cs := by
  induction cs generalizing n with
  | nil =>
    unfold find at h
    split at h
    · rename_i hempty
      cases h
      simp [hempty]
    · cases h
  | cons c cs ih =>
    unfold find at h
    split at h
    · rename_i hmatch
      cases h
      obtain ⟨rest, hrest⟩ := List.isPrefixOf_iff_prefix.mp hmatch
      rw [← hrest, size_append]
      omega
    · obtain ⟨m, hm, rfl⟩ := Option.map_eq_some_iff.mp h
      have hle := ih hm
      rw [size_cons]
      omega

end Utf8
