import Mathlib.Data.List.Sort
import Opolys.Ceremony.JsonNumber

/-!
# Canonical JSON

The ceremony hashes a JSON document in a form of its own: no blanks, the entries of an object sorted
by key, and a number with at most six places, without zeros behind them. The document is determined
by that text up to the order of the keys and to what is lost of the numbers.

* `canonicalJson` : the text that is hashed.
* `Json.normal` : a document with its keys sorted and its numbers in millionths.
* `canonicalJson_told` : the text determines the normal form, whatever follows it.
-/

namespace Opolys

open Readable (ToldApart separated)

/-! ## Documents -/

/-- A JSON document, with numbers of some type. -/
inductive Json (ν : Type) where
  | null
  | bool (b : Bool)
  | number (n : ν)
  | string (s : String)
  | array (items : List (Json ν))
  | object (entries : List (String × Json ν))

/-- Entries of an object in the order of their keys. -/
def sortByKey {α : Type} (entries : List (String × α)) : List (String × α) :=
  entries.insertionSort fun e f => e.1 ≤ f.1

/-! ## The text of a document -/

section Text

variable (encodeString : String → List Char)

mutual

/-- The text that is hashed. Numbers of a document are finite, so there is always one. -/
def canonicalJson : Json JsonNumber → List Char
  | .null => ['n', 'u', 'l', 'l']
  | .bool true => ['t', 'r', 'u', 'e']
  | .bool false => ['f', 'a', 'l', 's', 'e']
  | .number number => canonicalJsonNumber number
  | .string value => encodeString value
  | .array values => '[' :: (separated ',' (canonicalItems values) ++ [']'])
  | .object map =>
    '{' :: (separated ',' ((sortByKey (canonicalEntries map)).map fun entry =>
      encodeString entry.1 ++ ':' :: entry.2) ++ ['}'])

def canonicalItems : List (Json JsonNumber) → List (List Char)
  | [] => []
  | value :: values => canonicalJson value :: canonicalItems values

def canonicalEntries : List (String × Json JsonNumber) → List (String × List Char)
  | [] => []
  | (key, value) :: entries => (key, canonicalJson value) :: canonicalEntries entries

end

end Text

/-! ## The normal form -/

mutual

/-- A document with its keys sorted and its numbers in millionths. -/
def Json.normal : Json JsonNumber → Json ℤ
  | .null => .null
  | .bool b => .bool b
  | .number number => .number number.millionths
  | .string value => .string value
  | .array values => .array (normalItems values)
  | .object map => .object (sortByKey (normalEntries map))

def normalItems : List (Json JsonNumber) → List (Json ℤ)
  | [] => []
  | value :: values => value.normal :: normalItems values

def normalEntries : List (String × Json JsonNumber) → List (String × Json ℤ)
  | [] => []
  | (key, value) :: entries => (key, value.normal) :: normalEntries entries

end

/-- An induction over the items and the entries of a document. -/
theorem Json.nestedInduction {ν : Type} {motive : Json ν → Prop} (null : motive .null)
    (bool : ∀ b, motive (.bool b)) (number : ∀ n, motive (.number n))
    (string : ∀ s, motive (.string s))
    (array : ∀ values, (∀ value ∈ values, motive value) → motive (.array values))
    (object : ∀ map, (∀ entry ∈ map, motive entry.2) → motive (.object map)) :
    ∀ value, motive value
  | .null => null
  | .bool b => bool b
  | .number n => number n
  | .string s => string s
  | .array values => array values fun value _ =>
    nestedInduction null bool number string array object value
  | .object map => object map fun entry hentry => by
    have hentry := List.sizeOf_lt_of_mem hentry
    have hvalue : sizeOf entry.2 < sizeOf entry := by
      cases entry
      simp
    exact nestedInduction null bool number string array object entry.2

theorem normalItems_eq (values : List (Json JsonNumber)) :
    normalItems values = values.map Json.normal := by
  induction values with
  | nil => rfl
  | cons value values ih => rw [normalItems, ih, List.map_cons]

theorem normalEntries_eq (entries : List (String × Json JsonNumber)) :
    normalEntries entries = entries.map fun entry => (entry.1, entry.2.normal) := by
  induction entries with
  | nil => rfl
  | cons entry entries ih => rw [normalEntries, ih, List.map_cons]

theorem sortByKey_map {α β : Type} (f : α → β) (entries : List (String × α)) :
    sortByKey (entries.map fun entry => (entry.1, f entry.2)) =
      (sortByKey entries).map fun entry => (entry.1, f entry.2) := by
  apply Eq.symm
  apply List.map_insertionSort
  intro _ _ _ _
  exact Iff.rfl

/-! ## What the text determines -/

section Told

variable (encodeString : String → List Char)

theorem canonicalItems_eq (values : List (Json JsonNumber)) :
    canonicalItems encodeString values = values.map (canonicalJson encodeString) := by
  induction values with
  | nil => rfl
  | cons value values ih => rw [canonicalItems, ih, List.map_cons]

theorem canonicalEntries_eq (entries : List (String × Json JsonNumber)) :
    canonicalEntries encodeString entries =
      entries.map fun entry => (entry.1, canonicalJson encodeString entry.2) := by
  induction entries with
  | nil => rfl
  | cons entry entries ih => rw [canonicalEntries, ih, List.map_cons]

/-- What the result relies on of the library's strings: a string is written behind a quotation mark,
where it ends can be seen, and no other string is written so. -/
structure StringEncoding : Prop where
  quoted : ∀ s, ∃ rest, encodeString s = '"' :: rest
  delimited : ∀ s t u v, encodeString s ++ u = encodeString t ++ v → encodeString s = encodeString t
  injective : Function.Injective encodeString

variable {encodeString : String → List Char}

theorem StringEncoding.append_inj (h : StringEncoding encodeString) {s t : String}
    {u v : List Char} (he : encodeString s ++ u = encodeString t ++ v) : s = t ∧ u = v := by
  have hsame := h.delimited s t u v he
  rw [hsame] at he
  exact ⟨h.injective hsame, List.append_cancel_left he⟩

/-- A character of a number. -/
def IsNumberChar (c : Char) : Prop := c.isDigit = true ∨ c = '-' ∨ c = '.'

/-- A text in front of which a number has ended. -/
def AfterNumber : Set (List Char) := {s | ∀ c ∈ s.head?, ¬IsNumberChar c}

theorem placesText_chars (k : ℕ) : ∀ c ∈ placesText k, IsNumberChar c := by
  intro c hc
  unfold placesText at hc
  split at hc
  · cases hc
  · rcases List.mem_cons.mp hc with rfl | hc
    · exact Or.inr (Or.inr rfl)
    · exact Or.inl (allDigits_shortPlaces k c hc)

theorem millionthsText_chars (n : ℤ) : ∀ c ∈ millionthsText n, IsNumberChar c := by
  intro c hc
  unfold millionthsText at hc
  rw [List.mem_append, List.mem_append] at hc
  rcases hc with (hc | hc) | hc
  · split at hc
    · rw [List.mem_singleton.mp hc]
      exact Or.inr (Or.inl rfl)
    · cases hc
  · exact Or.inl (Decimal.allDigits_toDigits _ c hc)
  · exact placesText_chars _ c hc

theorem millionthsText_ne_nil (n : ℤ) : millionthsText n ≠ [] := by
  intro h
  unfold millionthsText at h
  rw [List.append_eq_nil_iff, List.append_eq_nil_iff] at h
  exact Nat.toDigits_ne_nil h.1.2

/-- The kind of a document. -/
def Json.kind {ν : Type} : Json ν → ℕ
  | .null => 0
  | .bool true => 1
  | .bool false => 2
  | .number _ => 3
  | .string _ => 4
  | .array _ => 5
  | .object _ => 6

/-- The kind of a document that begins with a character. -/
def kindOf (c : Char) : ℕ :=
  if c = 'n' then 0 else if c = 't' then 1 else if c = 'f' then 2 else if c = '"' then 4
  else if c = '[' then 5 else if c = '{' then 6
  else if c.isDigit = true ∨ c = '-' ∨ c = '.' then 3 else 7

theorem kindOf_number {c : Char} (h : IsNumberChar c) : kindOf c = 3 := by
  unfold kindOf
  rcases h with h | rfl | rfl
  · have hne (d : Char) (hd : d.isDigit = false) : c ≠ d := by
      rintro rfl
      rw [h] at hd
      cases hd
    simp [hne, h]
  · rfl
  · rfl

/-- The first character of a document. -/
theorem canonicalJson_head (h : StringEncoding encodeString) (value : Json JsonNumber) :
    ∃ c rest, canonicalJson encodeString value = c :: rest ∧ kindOf c = value.kind := by
  cases value with
  | null => exact ⟨_, _, rfl, rfl⟩
  | bool b => cases b <;> exact ⟨_, _, rfl, rfl⟩
  | number number =>
    rw [canonicalJson, canonicalJsonNumber_eq]
    obtain ⟨c, rest, hrest⟩ := List.exists_cons_of_ne_nil (millionthsText_ne_nil number.millionths)
    refine ⟨c, rest, hrest, ?_⟩
    apply kindOf_number
    apply millionthsText_chars number.millionths
    rw [hrest]
    exact List.mem_cons_self
  | string value =>
    obtain ⟨rest, hrest⟩ := h.quoted value
    exact ⟨'"', rest, hrest, rfl⟩
  | array values => exact ⟨_, _, rfl, rfl⟩
  | object map => exact ⟨_, _, rfl, rfl⟩

theorem kind_eq (h : StringEncoding encodeString) {v w : Json JsonNumber} {s t : List Char}
    (he : canonicalJson encodeString v ++ s = canonicalJson encodeString w ++ t) :
    v.kind = w.kind := by
  obtain ⟨c, rest, hv, hkind⟩ := canonicalJson_head h v
  obtain ⟨d, rest', hw, hkind'⟩ := canonicalJson_head h w
  rw [hv, hw, List.cons_append, List.cons_append] at he
  rw [← hkind, ← hkind', (List.cons.inj he).1]

theorem sep_mem_afterNumber {c : Char} (hc : ¬IsNumberChar c) (t : List Char) :
    c :: t ∈ AfterNumber := by
  intro d hd
  cases hd
  exact hc

theorem not_isNumberChar {c : Char} (h : kindOf c ≠ 3) : ¬IsNumberChar c :=
  fun hc => h (kindOf_number hc)

theorem comma_mem (t : List Char) : ',' :: t ∈ AfterNumber :=
  sep_mem_afterNumber (by simp [IsNumberChar]) t

theorem number_told (n : JsonNumber) :
    ToldApart canonicalJsonNumber JsonNumber.millionths AfterNumber n := by
  intro m s t hs ht h
  rw [canonicalJsonNumber_eq, canonicalJsonNumber_eq] at h
  obtain ⟨htext, hst⟩ := Readable.append_inj_of_run (millionthsText_chars _)
    (millionthsText_chars _) hs ht h
  exact ⟨millionthsText_injective htext, hst⟩

/-- No document begins like the end of a list. -/
theorem canonicalJson_ne_close (h : StringEncoding encodeString) (value : Json JsonNumber)
    (s t : List Char) : canonicalJson encodeString value ++ s ≠ ']' :: t := by
  intro he
  obtain ⟨c, rest, hvalue, hkind⟩ := canonicalJson_head h value
  rw [hvalue, List.cons_append] at he
  rw [(List.cons.inj he).1] at hkind
  cases value with
  | bool b => cases b <;> cases hkind
  | _ => cases hkind

/-- An entry as it is written. -/
def entryText (encodeString : String → List Char) (entry : String × Json JsonNumber) : List Char :=
  encodeString entry.1 ++ ':' :: canonicalJson encodeString entry.2

theorem entryText_ne_close (h : StringEncoding encodeString) (entry : String × Json JsonNumber)
    (s t : List Char) : entryText encodeString entry ++ s ≠ '}' :: t := by
  intro he
  obtain ⟨rest, hrest⟩ := h.quoted entry.1
  unfold entryText at he
  rw [hrest, List.cons_append, List.cons_append] at he
  cases (List.cons.inj he).1

theorem entry_told (h : StringEncoding encodeString) {entry : String × Json JsonNumber}
    (hvalue : ToldApart (canonicalJson encodeString) Json.normal AfterNumber entry.2) :
    ToldApart (entryText encodeString) (fun e => (e.1, e.2.normal)) AfterNumber entry := by
  intro other s t hs ht he
  unfold entryText at he
  rw [List.append_assoc, List.append_assoc] at he
  obtain ⟨hkey, hrest⟩ := h.append_inj he
  obtain ⟨hnormal, hst⟩ := hvalue other.2 s t hs ht (List.cons.inj hrest).2
  exact ⟨Prod.ext hkey hnormal, hst⟩

theorem canonicalJson_array (values : List (Json JsonNumber)) (s : List Char) :
    canonicalJson encodeString (.array values) ++ s =
      '[' :: (separated ',' (values.map (canonicalJson encodeString)) ++ ']' :: s) := by
  rw [canonicalJson, canonicalItems_eq]
  simp

theorem canonicalJson_object (map : List (String × Json JsonNumber)) (s : List Char) :
    canonicalJson encodeString (.object map) ++ s =
      '{' :: (separated ',' ((sortByKey map).map (entryText encodeString)) ++ '}' :: s) := by
  rw [canonicalJson, canonicalEntries_eq, sortByKey_map, List.map_map]
  simp [Function.comp_def]
  rfl

/-- The text of a document determines its normal form, and what comes behind it. -/
theorem canonicalJson_told (h : StringEncoding encodeString) (value : Json JsonNumber) :
    ToldApart (canonicalJson encodeString) Json.normal AfterNumber value := by
  induction value using Json.nestedInduction with
  | null =>
    intro w s t hs ht he
    have hkind := kind_eq h he
    cases w with
    | null => exact ⟨rfl, List.append_cancel_left he⟩
    | bool b => cases b <;> cases hkind
    | _ => cases hkind
  | bool b =>
    intro w s t hs ht he
    have hkind := kind_eq h he
    cases w with
    | bool b' =>
      cases b <;> cases b'
      · exact ⟨rfl, List.append_cancel_left he⟩
      · cases hkind
      · cases hkind
      · exact ⟨rfl, List.append_cancel_left he⟩
    | _ => cases b <;> cases hkind
  | number n =>
    intro w s t hs ht he
    have hkind := kind_eq h he
    cases w with
    | number m =>
      obtain ⟨hn, hst⟩ := number_told n m s t hs ht he
      exact ⟨congrArg Json.number hn, hst⟩
    | bool b => cases b <;> cases hkind
    | _ => cases hkind
  | string x =>
    intro w s t hs ht he
    have hkind := kind_eq h he
    cases w with
    | string y =>
      obtain ⟨rfl, hst⟩ := h.append_inj he
      exact ⟨rfl, hst⟩
    | bool b => cases b <;> cases hkind
    | _ => cases hkind
  | array values ih =>
    intro w s t hs ht he
    have hkind := kind_eq h he
    cases w with
    | array values' =>
      rw [canonicalJson_array, canonicalJson_array] at he
      obtain ⟨hviews, hst⟩ := Readable.separated_told (by decide) comma_mem
        (sep_mem_afterNumber (not_isNumberChar (by decide))) (canonicalJson_ne_close h) ih
        (List.cons.inj he).2
      refine ⟨?_, hst⟩
      rw [Json.normal, Json.normal, normalItems_eq, normalItems_eq, hviews]
    | bool b => cases b <;> cases hkind
    | _ => cases hkind
  | object map ih =>
    intro w s t hs ht he
    have hkind := kind_eq h he
    cases w with
    | object map' =>
      rw [canonicalJson_object, canonicalJson_object] at he
      have hentries : ∀ entry ∈ sortByKey map, ToldApart (entryText encodeString)
          (fun e => (e.1, e.2.normal)) AfterNumber entry := by
        intro entry hentry
        apply entry_told h
        apply ih
        exact (List.mem_insertionSort _).mp hentry
      obtain ⟨hviews, hst⟩ := Readable.separated_told (by decide) comma_mem
        (sep_mem_afterNumber (not_isNumberChar (by decide))) (entryText_ne_close h) hentries
        (List.cons.inj he).2
      refine ⟨?_, hst⟩
      rw [Json.normal, Json.normal, normalEntries_eq, normalEntries_eq, sortByKey_map,
        sortByKey_map, hviews]
    | bool b => cases b <;> cases hkind
    | _ => cases hkind

theorem map_eq_map_of_forall {α β γ : Type*} {f : α → β} {g : α → γ} {as bs : List α}
    (h : ∀ a ∈ as, ∀ b, f a = f b → g a = g b) (he : as.map f = bs.map f) :
    as.map g = bs.map g := by
  induction as generalizing bs with
  | nil =>
    cases bs with
    | nil => rfl
    | cons b bs => cases he
  | cons a as ih =>
    obtain ⟨ha, has⟩ := List.forall_mem_cons.mp h
    cases bs with
    | nil => cases he
    | cons b bs =>
      obtain ⟨hhead, htail⟩ := List.cons.inj he
      rw [List.map_cons, List.map_cons, ha b hhead, ih has htail]

/-- Documents with the same normal form have the same text. -/
theorem canonicalJson_eq_of_normal {v w : Json JsonNumber} (he : v.normal = w.normal) :
    canonicalJson encodeString v = canonicalJson encodeString w := by
  induction v using Json.nestedInduction generalizing w with
  | null => cases w <;> cases he; rfl
  | bool b => cases w <;> cases he; rfl
  | number n =>
    cases w with
    | number m =>
      rw [canonicalJson, canonicalJson, canonicalJsonNumber_eq, canonicalJsonNumber_eq,
        Json.number.inj he]
    | _ => cases he
  | string x => cases w <;> cases he; rfl
  | array values ih =>
    cases w with
    | array values' =>
      have hitems := Json.array.inj he
      rw [normalItems_eq, normalItems_eq] at hitems
      rw [canonicalJson, canonicalJson, canonicalItems_eq, canonicalItems_eq,
        map_eq_map_of_forall (fun value hvalue w => ih value hvalue) hitems]
    | _ => cases he
  | object map ih =>
    cases w with
    | object map' =>
      have hentries := Json.object.inj he
      rw [normalEntries_eq, normalEntries_eq, sortByKey_map, sortByKey_map] at hentries
      rw [canonicalJson, canonicalJson, canonicalEntries_eq, canonicalEntries_eq, sortByKey_map,
        sortByKey_map]
      rw [map_eq_map_of_forall (g := fun entry : String × Json JsonNumber =>
        (entry.1, canonicalJson encodeString entry.2)) ?_ hentries]
      intro entry hentry other hother
      obtain ⟨hkey, hnormal⟩ := Prod.mk.inj hother
      exact Prod.ext hkey (ih entry ((List.mem_insertionSort _).mp hentry) hnormal)
    | _ => cases he

/-- The text is the same for exactly the documents with the same normal form. -/
theorem canonicalJson_eq_iff (h : StringEncoding encodeString) {v w : Json JsonNumber} :
    canonicalJson encodeString v = canonicalJson encodeString w ↔ v.normal = w.normal := by
  constructor
  · intro he
    have hnil : [] ∈ AfterNumber := by
      intro c hc
      cases hc
    exact (canonicalJson_told h v w [] [] hnil hnil (by rw [he])).1
  · exact canonicalJson_eq_of_normal

end Told

end Opolys
