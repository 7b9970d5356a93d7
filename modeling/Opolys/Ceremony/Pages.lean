import Mathlib.Data.Rat.Defs
import Opolys.Ceremony.Json
import Opolys.Library.Utf8

/-!
# Reading the pages of the sources

The ceremony tool looks for a keyword in the page of a source, in lower case, and then for a number
around that place in the page itself. The places around a keyword are found by adding and
subtracting bytes, so that they can lie inside of a character, and taking them is then a panic.
Where no window that is looked at ends inside of a character, the tool finds nothing or a number
within its bounds.
-/

namespace Opolys.Ceremony

def prodMinTonnes : ℚ := 1000

def prodMaxTonnes : ℚ := 10000

def priceMinUsdOz : ℚ := 500

def priceMaxUsdOz : ℚ := 15000

/-! ## Numbers in a text -/

section Numbers

variable (parseF64 : List Char → Option ℚ) (min max : ℚ)

/-- A character of a number with separators. -/
def isNumberPart (c : Char) : Bool := c.isDigit || c == ',' || c == '.'

def lastNumberLoop (chars : List Char) (result : Option ℚ) : Option ℚ :=
  match chars with
  | [] => result
  | c :: rest =>
    if _h : c.isDigit = true then
      let numStr := ((c :: rest).takeWhile isNumberPart).filter (· ≠ ',')
      let result :=
        match parseF64 numStr with
        | some n => if min ≤ n ∧ n ≤ max then some n else result
        | none => result
      lastNumberLoop ((c :: rest).dropWhile isNumberPart) result
    else lastNumberLoop rest result
termination_by chars.length
decreasing_by
  · have hpart : isNumberPart c = true := by simp [isNumberPart, _h]
    rw [List.dropWhile_cons_of_pos hpart]
    have hle := (List.dropWhile_sublist isNumberPart (l := rest)).length_le
    rw [List.length_cons]
    omega
  · simp

/-- The last number of a text that lies within the bounds. -/
def lastNumberInRange (s : List Char) : Option ℚ := lastNumberLoop parseF64 min max s none

end Numbers

/-! ## Windows of a page -/

/-- Look at windows of a page, in order, until a number is found. No result at all is a panic. -/
def searchWindows (read : List Char → Option ℚ) (body : List Char) :
    List (ℕ × ℕ) → Option (Option ℚ)
  | [] => some none
  | (first, last) :: windows =>
    match Utf8.slice body first last with
    | none => none
    | some window =>
      match read window with
      | some n => some (some n)
      | none => searchWindows read body windows

section Pages

variable (toLowercase : List Char → List Char) (parseF64 : List Char → Option ℚ)

def productionKeywords : List String :=
  ["tonne", "metric ton", "mine production", "world production"]

def priceKeywords : List String :=
  ["spot price", "gold price", "ask price", "bid price", "xau", "per oz", "per ounce"]

/-- The windows before and after the first place of each keyword. -/
def productionWindows (body : List Char) : List (ℕ × ℕ) :=
  let text := toLowercase body
  productionKeywords.flatMap fun kw =>
    match Utf8.find kw.toList text with
    | none => []
    | some pos =>
      let behind := pos + Utf8.size kw.toList
      [(pos - 200, pos), (behind, min (behind + 200) (Utf8.size body))]

/-- The windows around the first place of each keyword. -/
def priceWindows (body : List Char) : List (ℕ × ℕ) :=
  let text := toLowercase body
  priceKeywords.flatMap fun kw =>
    match Utf8.find kw.toList text with
    | none => []
    | some pos => [(pos - 100, min (pos + Utf8.size kw.toList + 100) (Utf8.size body))]

def parseProductionTonnes (sourceName : String) (body : List Char) : Option (Option ℚ) :=
  if body = [] ∨ sourceName = "BullionVault" then some none
  else searchWindows (lastNumberInRange parseF64 prodMinTonnes prodMaxTonnes) body
    (productionWindows toLowercase body)

mutual

/-- The first price in a document, under the keys that name one before all others. -/
def findPriceInJson : Json JsonNumber → Option ℚ
  | .number n =>
    if priceMinUsdOz ≤ n.asF64 ∧ n.asF64 ≤ priceMaxUsdOz then some n.asF64 else none
  | .object map =>
    let prices := findPriceInEntries map
    let named := ["price", "ask", "bid", "spot", "usd", "rate"].filterMap fun key =>
      (prices.lookup key).join
    let all := (sortByKey prices).filterMap Prod.snd
    (named ++ all).head?
  | .array values => (findPriceInItems values).head?
  | _ => none

def findPriceInItems : List (Json JsonNumber) → List ℚ
  | [] => []
  | value :: values => (findPriceInJson value).toList ++ findPriceInItems values

def findPriceInEntries : List (String × Json JsonNumber) → List (String × Option ℚ)
  | [] => []
  | (key, value) :: entries => (key, findPriceInJson value) :: findPriceInEntries entries

end

variable (fromStr : List Char → Option (Json JsonNumber))

def parsePriceUsdOz (sourceName : String) (body : List Char) : Option (Option ℚ) :=
  if body = [] then some none
  else if sourceName = "BullionVault" then some ((fromStr body).bind findPriceInJson)
  else searchWindows (lastNumberInRange parseF64 priceMinUsdOz priceMaxUsdOz) body
    (priceWindows toLowercase body)

end Pages

/-! ## What is found is within the bounds -/

/-- A number within bounds, if any. -/
def Within (low high : ℚ) (found : Option ℚ) : Prop := ∀ n ∈ found, low ≤ n ∧ n ≤ high

theorem within_none (low high : ℚ) : Within low high none := by
  intro n hn
  cases hn

theorem within_lastNumberLoop {parseF64 : List Char → Option ℚ} {low high : ℚ} (chars : List Char)
    {result : Option ℚ} (h : Within low high result) :
    Within low high (lastNumberLoop parseF64 low high chars result) := by
  induction chars, result using lastNumberLoop.induct parseF64 low high with
  | case1 result =>
    rw [lastNumberLoop]
    exact h
  | case2 result c rest hdigit numStr next ih =>
    rw [lastNumberLoop, dif_pos hdigit]
    apply ih
    show Within low high (match parseF64 numStr with
      | some n => if low ≤ n ∧ n ≤ high then some n else result
      | none => result)
    split
    · split
      · rename_i hbounds
        intro m hm
        cases hm
        exact hbounds
      · exact h
    · exact h
  | case3 result c rest hdigit ih =>
    rw [lastNumberLoop, dif_neg hdigit]
    exact ih h

theorem within_lastNumberInRange (parseF64 : List Char → Option ℚ) (low high : ℚ)
    (s : List Char) : Within low high (lastNumberInRange parseF64 low high s) :=
  within_lastNumberLoop s (within_none low high)

theorem within_searchWindows {read : List Char → Option ℚ} {low high : ℚ}
    (h : ∀ window, Within low high (read window)) {body : List Char} {windows : List (ℕ × ℕ)}
    {found : Option ℚ} (hfound : searchWindows read body windows = some found) :
    Within low high found := by
  induction windows with
  | nil =>
    cases hfound
    exact within_none low high
  | cons w windows ih =>
    unfold searchWindows at hfound
    split at hfound
    · cases hfound
    · rename_i window _
      split at hfound
      · rename_i n hn
        cases hfound
        rw [← hn]
        exact h window
      · exact ih hfound

theorem findPriceInItems_eq (values : List (Json JsonNumber)) :
    findPriceInItems values = values.filterMap findPriceInJson := by
  induction values with
  | nil => rfl
  | cons value values ih =>
    rw [findPriceInItems, ih, List.filterMap_cons]
    cases findPriceInJson value <;> rfl

theorem findPriceInEntries_eq (entries : List (String × Json JsonNumber)) :
    findPriceInEntries entries = entries.map fun entry => (entry.1, findPriceInJson entry.2) := by
  induction entries with
  | nil => rfl
  | cons entry entries ih => rw [findPriceInEntries, ih, List.map_cons]

theorem within_findPriceInJson (value : Json JsonNumber) :
    Within priceMinUsdOz priceMaxUsdOz (findPriceInJson value) := by
  induction value using Json.nestedInduction with
  | null => exact within_none _ _
  | bool b => exact within_none _ _
  | string s => exact within_none _ _
  | number n =>
    rw [findPriceInJson]
    split
    · rename_i hbounds
      intro m hm
      cases hm
      exact hbounds
    · exact within_none _ _
  | array values ih =>
    intro n hn
    rw [findPriceInJson, findPriceInItems_eq] at hn
    obtain ⟨value, hvalue, hprice⟩ := List.mem_filterMap.mp (List.mem_of_mem_head? hn)
    exact ih value hvalue n hprice
  | object map ih =>
    intro n hn
    have hentry (price : Option ℚ) (key : String) (h : (key, price) ∈ findPriceInEntries map)
        (hprice : price = some n) : priceMinUsdOz ≤ n ∧ n ≤ priceMaxUsdOz := by
      rw [findPriceInEntries_eq] at h
      obtain ⟨entry, hmem, heq⟩ := List.mem_map.mp h
      apply ih entry hmem n
      rw [(Prod.mk.inj heq).2, hprice]
      rfl
    rw [findPriceInJson] at hn
    rcases List.mem_append.mp (List.mem_of_mem_head? hn) with hnamed | hall
    · obtain ⟨key, -, hkey⟩ := List.mem_filterMap.mp hnamed
      have hlookup : (findPriceInEntries map).lookup key = some (some n) := by
        cases hprice : (findPriceInEntries map).lookup key with
        | none =>
          rw [hprice] at hkey
          cases hkey
        | some price =>
          rw [hprice] at hkey
          exact congrArg some hkey
      obtain ⟨before, behind, hsplit, -⟩ := List.lookup_eq_some_iff.mp hlookup
      apply hentry (some n) key _ rfl
      rw [hsplit]
      exact List.mem_append_right _ List.mem_cons_self
    · obtain ⟨⟨key, price⟩, hmem, hprice⟩ := List.mem_filterMap.mp hall
      exact hentry price key ((List.mem_insertionSort _).mp hmem) hprice

/-! ## The numbers of a text -/

section Names

variable (parseF64 : List Char → Option ℚ) (low high : ℚ)

/-- A run of digits and separators of a text. It begins with a digit, only separators of the same
run stand before it, and it goes on as long as it can. -/
def RunsIn (text run : List Char) : Prop :=
  ∃ before separators after, text = before ++ separators ++ run ++ after ∧
    (∀ c ∈ before.getLast?, isNumberPart c = false) ∧
    (∀ c ∈ separators, c.isDigit = false ∧ isNumberPart c = true) ∧
    (∃ d ∈ run.head?, d.isDigit = true) ∧ (∀ c ∈ run, isNumberPart c = true) ∧
    ∀ c ∈ after.head?, isNumberPart c = false

/-- A text names a number within bounds. -/
def Names (text : List Char) : Prop :=
  ∃ run, RunsIn text run ∧ ∃ n ∈ parseF64 (run.filter (· ≠ ',')), low ≤ n ∧ n ≤ high

theorem isNumberPart_of_isDigit {c : Char} (h : c.isDigit = true) : isNumberPart c = true := by
  simp [isNumberPart, h]

/-- What is no digit adds no run to what comes behind it. -/
theorem runsIn_cons_iff {c : Char} {text run : List Char} (h : c.isDigit = false) :
    RunsIn (c :: text) run ↔ RunsIn text run := by
  constructor
  · rintro ⟨before, separators, after, hsplit, hbefore, hseparators, hdigit, hrun, hafter⟩
    obtain ⟨d, hd, hdigit⟩ := hdigit
    cases before with
    | nil =>
      cases separators with
      | nil =>
        cases run with
        | nil => cases hd
        | cons e run =>
          cases hd
          cases hsplit
          rw [h] at hdigit
          cases hdigit
      | cons e separators =>
        cases hsplit
        exact ⟨[], separators, after, rfl, nofun,
          fun c hc => hseparators c (List.mem_cons_of_mem _ hc), ⟨d, hd, hdigit⟩, hrun, hafter⟩
    | cons e before =>
      cases hsplit
      refine ⟨before, separators, after, rfl, fun c hc => hbefore c ?_, hseparators,
        ⟨d, hd, hdigit⟩, hrun, hafter⟩
      rw [List.getLast?_cons]
      cases hlast : before.getLast? with
      | none => rw [hlast] at hc; cases hc
      | some x => rw [hlast] at hc; cases hc; rfl
  · rintro ⟨before, separators, after, rfl, hbefore, hseparators, hdigit, hrun, hafter⟩
    cases before with
    | nil =>
      cases hpart : isNumberPart c with
      | true =>
        refine ⟨[], c :: separators, after, rfl, nofun, ?_, hdigit, hrun, hafter⟩
        exact List.forall_mem_cons.mpr ⟨⟨h, hpart⟩, hseparators⟩
      | false =>
        refine ⟨[c], separators, after, rfl, ?_, hseparators, hdigit, hrun, hafter⟩
        rintro d hd
        cases hd
        exact hpart
    | cons e before =>
      exact ⟨c :: e :: before, separators, after, rfl, hbefore, hseparators, hdigit, hrun, hafter⟩

theorem dropWhile_append_cons {p : Char → Bool} {c : Char} (h : p c = false)
    (front back : List Char) :
    (front ++ c :: back).dropWhile p = front.dropWhile p ++ c :: back := by
  induction front with
  | nil => rw [List.nil_append, List.dropWhile_cons_of_neg (by simp [h]), List.dropWhile_nil,
    List.nil_append]
  | cons d front ih =>
    rw [List.cons_append]
    cases hd : p d with
    | true => rw [List.dropWhile_cons_of_pos hd, List.dropWhile_cons_of_pos hd, ih]
    | false =>
      rw [List.dropWhile_cons_of_neg (by simp [hd]), List.dropWhile_cons_of_neg (by simp [hd]),
        List.cons_append]

/-- Where no run can begin, something stands before one. -/
theorem before_ne_nil {before separators run after : List Char}
    (hbehind : ∀ d ∈ (before ++ separators ++ run ++ after).head?, isNumberPart d = false)
    (hseparators : ∀ c ∈ separators, c.isDigit = false ∧ isNumberPart c = true)
    (hdigit : ∃ d ∈ run.head?, d.isDigit = true) (hrun : ∀ c ∈ run, isNumberPart c = true) :
    before ≠ [] := by
  rintro rfl
  obtain ⟨d, hd, -⟩ := hdigit
  cases separators with
  | cons e separators =>
    have hpart := (hseparators e List.mem_cons_self).2
    rw [hbehind e rfl] at hpart
    cases hpart
  | nil =>
    cases run with
    | nil => cases hd
    | cons e run =>
      have hpart := hrun e List.mem_cons_self
      rw [hbehind e rfl] at hpart
      cases hpart

/-- A digit begins a run, and the others begin behind it. -/
theorem runsIn_cons_of_isDigit {c : Char} {text run : List Char} (h : c.isDigit = true) :
    RunsIn (c :: text) run ↔ run = (c :: text).takeWhile isNumberPart ∨
      RunsIn ((c :: text).dropWhile isNumberPart) run := by
  have hbehind : ∀ d ∈ ((c :: text).dropWhile isNumberPart).head?, isNumberPart d = false := by
    intro d hd
    have hnot := List.head?_dropWhile_not isNumberPart (c :: text)
    rw [Option.mem_def.mp hd] at hnot
    exact hnot
  constructor
  · rintro ⟨before, separators, after, hsplit, hbefore, hseparators, hdigit, hrun, hafter⟩
    rcases List.eq_nil_or_concat before with rfl | ⟨front, e, rfl⟩
    · left
      cases separators with
      | cons e separators =>
        cases hsplit
        rw [(hseparators c List.mem_cons_self).1] at h
        cases h
      | nil =>
        have hnone : after.takeWhile isNumberPart = [] := by
          cases after with
          | nil => rfl
          | cons d after => exact List.takeWhile_cons_of_neg (by simp [hafter d rfl])
        have hstarts : c :: text = run ++ after := hsplit
        rw [hstarts, List.takeWhile_append_of_pos hrun, hnone, List.append_nil]
    · right
      have hlast : isNumberPart e = false := hbefore e (by simp)
      refine ⟨front.dropWhile isNumberPart ++ [e], separators, after, ?_, ?_, hseparators, hdigit,
        hrun, hafter⟩
      · rw [hsplit]
        simp only [List.concat_eq_append, List.append_assoc, List.cons_append, List.nil_append]
        exact dropWhile_append_cons hlast front _
      · simp only [List.getLast?_concat, Option.mem_some_iff]
        rintro d rfl
        exact hlast
  · rintro (rfl | ⟨before, separators, after, hsplit, hbefore, hseparators, hdigit, hrun, hafter⟩)
    · refine ⟨[], [], (c :: text).dropWhile isNumberPart, ?_, nofun, nofun, ⟨c, ?_, h⟩, ?_, hbehind⟩
      · exact List.takeWhile_append_dropWhile.symm
      · rw [List.takeWhile_cons_of_pos (isNumberPart_of_isDigit h)]
        rfl
      · exact fun d hd => List.mem_takeWhile_imp hd
    · have hstarts := before_ne_nil (hsplit ▸ hbehind) hseparators hdigit hrun
      refine ⟨(c :: text).takeWhile isNumberPart ++ before, separators, after, ?_, ?_, hseparators,
        hdigit, hrun, hafter⟩
      · rw [List.append_assoc, List.append_assoc, List.append_assoc, ← List.append_assoc before,
          ← List.append_assoc (before ++ separators), ← hsplit, List.takeWhile_append_dropWhile]
      · rw [List.getLast?_append_of_ne_nil _ hstarts]
        exact hbefore

theorem not_runsIn_nil (run : List Char) : ¬RunsIn [] run := by
  rintro ⟨before, separators, after, hsplit, -, -, ⟨d, hd, -⟩, -⟩
  have hempty : run = [] := by
    simp only [List.nil_eq, List.append_eq_nil_iff] at hsplit
    exact hsplit.1.2
  rw [hempty] at hd
  cases hd

theorem lastNumberLoop_eq_none_iff (chars : List Char) (result : Option ℚ) :
    lastNumberLoop parseF64 low high chars result = none ↔
      result = none ∧ ¬Names parseF64 low high chars := by
  induction chars, result using lastNumberLoop.induct parseF64 low high with
  | case1 result =>
    rw [lastNumberLoop]
    exact (and_iff_left fun ⟨run, hrun, _⟩ => not_runsIn_nil run hrun).symm
  | case2 result c rest hdigit numStr next ih =>
    have hnames : Names parseF64 low high (c :: rest) ↔
        (∃ n ∈ parseF64 numStr, low ≤ n ∧ n ≤ high) ∨
          Names parseF64 low high ((c :: rest).dropWhile isNumberPart) := by
      unfold Names
      simp only [runsIn_cons_of_isDigit hdigit, or_and_right, exists_or, exists_eq_left]
      rfl
    have hnext : next = none ↔ result = none ∧ ¬∃ n ∈ parseF64 numStr, low ≤ n ∧ n ≤ high := by
      show (match parseF64 numStr with
        | some n => if low ≤ n ∧ n ≤ high then some n else result
        | none => result) = none ↔ _
      cases parseF64 numStr with
      | none => simp
      | some n => by_cases hbounds : low ≤ n ∧ n ≤ high <;> simp [hbounds]
    rw [lastNumberLoop, dif_pos hdigit, hnames, not_or, ← and_assoc, ← hnext]
    exact ih
  | case3 result c rest hdigit ih =>
    rw [lastNumberLoop, dif_neg hdigit, ih]
    unfold Names
    simp only [runsIn_cons_iff (Bool.not_eq_true _ ▸ hdigit)]

theorem lastNumberInRange_eq_none_iff (text : List Char) :
    lastNumberInRange parseF64 low high text = none ↔ ¬Names parseF64 low high text :=
  (lastNumberLoop_eq_none_iff parseF64 low high text none).trans (and_iff_right rfl)

end Names

/-! ## Where a page breaks -/

section Breaks

variable (toLowercase : List Char → List Char) (parseF64 : List Char → Option ℚ)
  (body : List Char)

/-- The page names a number within bounds between two offsets. -/
def NamesBetween (low high : ℚ) (first last : ℕ) : Prop :=
  ∃ text, Utf8.slice body first last = some text ∧ Names parseF64 low high text

/-- A production stands within 200 bytes of the first place of a keyword. -/
def ProductionNear (kw : String) : Prop :=
  ∃ pos, Utf8.find kw.toList (toLowercase body) = some pos ∧
    let behind := pos + Utf8.size kw.toList
    (NamesBetween parseF64 body prodMinTonnes prodMaxTonnes (pos - 200) pos ∨
      NamesBetween parseF64 body prodMinTonnes prodMaxTonnes behind
        (min (behind + 200) (Utf8.size body)))

/-- The first place of a keyword lies behind the end of the page, or the byte at it or 200 bytes
before it goes on with a character. Where no production stands before it, the same goes for the end
of the keyword and the byte 200 bytes behind it. -/
def ProductionCut (kw : String) : Prop :=
  ∃ pos, Utf8.find kw.toList (toLowercase body) = some pos ∧
    let behind := pos + Utf8.size kw.toList
    (Utf8.CutsAt body (pos - 200) ∨ Utf8.CutsAt body pos ∨ Utf8.size body < pos ∨
      ¬NamesBetween parseF64 body prodMinTonnes prodMaxTonnes (pos - 200) pos ∧
        (Utf8.CutsAt body behind ∨ Utf8.CutsAt body (behind + 200) ∨ Utf8.size body < behind))

/-- A price stands within 100 bytes of the first place of a keyword. -/
def PriceNear (kw : String) : Prop :=
  ∃ pos, Utf8.find kw.toList (toLowercase body) = some pos ∧
    NamesBetween parseF64 body priceMinUsdOz priceMaxUsdOz (pos - 100)
      (min (pos + Utf8.size kw.toList + 100) (Utf8.size body))

/-- The byte 100 bytes before the first place of a keyword or 100 bytes behind it goes on with a
character, or the first of them lies behind the end of the page. -/
def PriceCut (kw : String) : Prop :=
  ∃ pos, Utf8.find kw.toList (toLowercase body) = some pos ∧
    (Utf8.CutsAt body (pos - 100) ∨ Utf8.CutsAt body (pos + Utf8.size kw.toList + 100) ∨
      Utf8.size body < pos - 100)

variable {toLowercase parseF64 body}

/-- The page is cut at a keyword, and no number stands near the keywords before it. -/
def BreaksAt (near cut : String → Prop) (keywords : List String) : Prop :=
  ∃ front kw back, keywords = front ++ kw :: back ∧ cut kw ∧ ∀ earlier ∈ front, ¬near earlier

theorem searchWindows_append {read : List Char → Option ℚ} (windows windows' : List (ℕ × ℕ)) :
    searchWindows read body (windows ++ windows') =
      (searchWindows read body windows).bind fun found =>
        match found with
        | some n => some (some n)
        | none => searchWindows read body windows' := by
  induction windows with
  | nil => rfl
  | cons w windows ih =>
    rw [List.cons_append, searchWindows, searchWindows]
    cases Utf8.slice body w.1 w.2 with
    | none => rfl
    | some window =>
      dsimp only
      cases read window with
      | none => exact ih
      | some n => rfl

/-- A search over keywords ends unless it breaks at one of them. -/
theorem exists_searchWindows_iff {read : List Char → Option ℚ} {windows : String → List (ℕ × ℕ)}
    {near cut : String → Prop} (hcut : ∀ kw, cut kw ↔ searchWindows read body (windows kw) = none)
    (hnear : ∀ kw, ¬cut kw →
      (near kw ↔ ∃ n, searchWindows read body (windows kw) = some (some n)))
    (keywords : List String) :
    (∃ found, searchWindows read body (keywords.flatMap windows) = some found) ↔
      ¬BreaksAt near cut keywords := by
  induction keywords with
  | nil =>
    refine iff_of_true ⟨none, rfl⟩ ?_
    rintro ⟨front, kw, back, hsplit, -⟩
    cases front <;> cases hsplit
  | cons kw keywords ih =>
    have hbreaks : BreaksAt near cut (kw :: keywords) ↔
        cut kw ∨ ¬near kw ∧ BreaksAt near cut keywords := by
      constructor
      · rintro ⟨front, kw', back, hsplit, hkw, hfront⟩
        cases front with
        | nil =>
          cases hsplit
          exact Or.inl hkw
        | cons first front =>
          cases hsplit
          obtain ⟨hfirst, hfront⟩ := List.forall_mem_cons.mp hfront
          exact Or.inr ⟨hfirst, front, kw', back, rfl, hkw, hfront⟩
      · rintro (hkw | ⟨hfirst, front, kw', back, rfl, hkw, hfront⟩)
        · exact ⟨[], kw, keywords, rfl, hkw, nofun⟩
        · exact ⟨kw :: front, kw', back, rfl, hkw, List.forall_mem_cons.mpr ⟨hfirst, hfront⟩⟩
    rw [List.flatMap_cons, searchWindows_append, hbreaks, not_or]
    by_cases hkw : cut kw
    · rw [(hcut kw).mp hkw]
      simp [hkw]
    · rw [hnear kw hkw]
      cases hsearch : searchWindows read body (windows kw) with
      | none => exact absurd ((hcut kw).mpr hsearch) hkw
      | some found =>
        cases found with
        | some n => simp [hkw]
        | none => simpa [hkw] using ih

theorem slice_eq_none_iff {first last : ℕ} : Utf8.slice body first last = none ↔
    Utf8.CutsAt body first ∨ Utf8.CutsAt body last ∨ last < first ∨ Utf8.size body < last := by
  rw [Option.eq_none_iff_forall_ne_some, ← not_exists, Utf8.exists_slice_iff,
    Utf8.isBoundary_iff, Utf8.isBoundary_iff]
  by_cases hfirst : Utf8.CutsAt body first
  · simp [hfirst]
  · by_cases hlast : Utf8.CutsAt body last
    · simp [hlast]
    · simp only [hfirst, hlast, not_false_eq_true, and_true, false_or]
      omega

variable {low high : ℚ}

theorem namesBetween_iff {first last : ℕ} {text : List Char}
    (h : Utf8.slice body first last = some text) :
    NamesBetween parseF64 body low high first last ↔
      ∃ n, lastNumberInRange parseF64 low high text = some n := by
  have hnone := lastNumberInRange_eq_none_iff parseF64 low high text
  unfold NamesBetween
  rw [h, ← Option.ne_none_iff_exists', ne_eq, hnone, not_not]
  simp

theorem not_namesBetween {first last : ℕ} (h : Utf8.slice body first last = none) :
    ¬NamesBetween parseF64 body low high first last := by
  rintro ⟨text, htext, -⟩
  rw [h] at htext
  cases htext

theorem searchWindows_eq_none_iff (window : ℕ × ℕ) (windows : List (ℕ × ℕ)) :
    searchWindows (lastNumberInRange parseF64 low high) body (window :: windows) = none ↔
      Utf8.slice body window.1 window.2 = none ∨
        ¬NamesBetween parseF64 body low high window.1 window.2 ∧
          searchWindows (lastNumberInRange parseF64 low high) body windows = none := by
  rw [searchWindows]
  cases hslice : Utf8.slice body window.1 window.2 with
  | none => simp
  | some text =>
    rw [namesBetween_iff hslice]
    cases hread : lastNumberInRange parseF64 low high text <;> simp [hread]

theorem searchWindows_eq_some_iff (window : ℕ × ℕ) (windows : List (ℕ × ℕ)) :
    (∃ n, searchWindows (lastNumberInRange parseF64 low high) body (window :: windows) =
        some (some n)) ↔
      NamesBetween parseF64 body low high window.1 window.2 ∨
        Utf8.slice body window.1 window.2 ≠ none ∧
          ∃ n, searchWindows (lastNumberInRange parseF64 low high) body windows =
            some (some n) := by
  rw [searchWindows]
  cases hslice : Utf8.slice body window.1 window.2 with
  | none => simp [not_namesBetween hslice]
  | some text =>
    rw [namesBetween_iff hslice]
    cases hread : lastNumberInRange parseF64 low high text <;> simp [hread]

/-- The search for a production ends unless the page breaks. -/
theorem exists_searchProduction_iff :
    (∃ found, searchWindows (lastNumberInRange parseF64 prodMinTonnes prodMaxTonnes) body
        (productionWindows toLowercase body) = some found) ↔
      ¬BreaksAt (ProductionNear toLowercase parseF64 body) (ProductionCut toLowercase parseF64 body)
        productionKeywords := by
  refine exists_searchWindows_iff (fun kw => ?_) (fun kw hkw => ?_) productionKeywords
  · unfold ProductionCut
    cases Utf8.find kw.toList (toLowercase body) with
    | none => simp [searchWindows]
    | some pos =>
      have hbefore : ¬pos < pos - 200 := by omega
      have hbehind (n : ℕ) : min (n + 200) (Utf8.size body) < n ↔ Utf8.size body < n := by omega
      have hend (n : ℕ) : ¬Utf8.size body < min n (Utf8.size body) := by omega
      dsimp only
      rw [searchWindows_eq_none_iff, searchWindows_eq_none_iff, slice_eq_none_iff,
        slice_eq_none_iff, Utf8.cutsAt_min]
      simp only [Option.some.injEq, exists_eq_left', hbefore, hbehind, hend, false_or, or_false,
        searchWindows, reduceCtorEq, and_false, or_assoc]
  · unfold ProductionNear ProductionCut at *
    cases hfind : Utf8.find kw.toList (toLowercase body) with
    | none => simp [searchWindows]
    | some pos =>
      rw [hfind] at hkw
      dsimp only
      rw [searchWindows_eq_some_iff, searchWindows_eq_some_iff]
      simp only [Option.some.injEq, exists_eq_left', not_or, searchWindows, reduceCtorEq,
        exists_false, and_false, or_false] at hkw ⊢
      obtain ⟨hfirst, hlast, hsize, -⟩ := hkw
      refine or_congr_right (iff_and_self.mpr fun _ => ?_)
      rw [ne_eq, slice_eq_none_iff]
      rintro (h | h | h | h)
      · exact hfirst h
      · exact hlast h
      · omega
      · exact hsize h

/-- The search for a price ends unless the page breaks. -/
theorem exists_searchPrice_iff :
    (∃ found, searchWindows (lastNumberInRange parseF64 priceMinUsdOz priceMaxUsdOz) body
        (priceWindows toLowercase body) = some found) ↔
      ¬BreaksAt (PriceNear toLowercase parseF64 body) (PriceCut toLowercase body)
        priceKeywords := by
  refine exists_searchWindows_iff (fun kw => ?_) (fun kw _ => ?_) priceKeywords
  · unfold PriceCut
    cases Utf8.find kw.toList (toLowercase body) with
    | none => simp [searchWindows]
    | some pos =>
      have horder (n : ℕ) : min (pos + n + 100) (Utf8.size body) < pos - 100 ↔
          Utf8.size body < pos - 100 := by omega
      have hend (n : ℕ) : ¬Utf8.size body < min n (Utf8.size body) := by omega
      dsimp only
      rw [searchWindows_eq_none_iff, slice_eq_none_iff, Utf8.cutsAt_min]
      simp only [Option.some.injEq, exists_eq_left', horder, hend, or_false, searchWindows,
        reduceCtorEq, and_false]
  · unfold PriceNear
    cases Utf8.find kw.toList (toLowercase body) with
    | none => simp [searchWindows]
    | some pos =>
      dsimp only
      rw [searchWindows_eq_some_iff]
      simp only [Option.some.injEq, exists_eq_left', searchWindows, reduceCtorEq, exists_false,
        and_false, or_false]

end Breaks

section Result

variable (toLowercase : List Char → List Char) (parseF64 : List Char → Option ℚ)
  (fromStr : List Char → Option (Json JsonNumber))

/-- The page of a source can be read for its production: it is not looked at, or it does not break
at a keyword. -/
def ProductionReadable (sourceName : String) (body : List Char) : Prop :=
  (body = [] ∨ sourceName = "BullionVault") ∨
    ¬BreaksAt (ProductionNear toLowercase parseF64 body) (ProductionCut toLowercase parseF64 body)
      productionKeywords

/-- The page of a source can be read for its price. -/
def PriceReadable (sourceName : String) (body : List Char) : Prop :=
  (body = [] ∨ sourceName = "BullionVault") ∨
    ¬BreaksAt (PriceNear toLowercase parseF64 body) (PriceCut toLowercase body) priceKeywords

theorem within_parseProductionTonnes {sourceName : String} {body : List Char} {found : Option ℚ}
    (h : parseProductionTonnes toLowercase parseF64 sourceName body = some found) :
    Within prodMinTonnes prodMaxTonnes found := by
  unfold parseProductionTonnes at h
  split at h
  · cases h
    exact within_none _ _
  · exact within_searchWindows (within_lastNumberInRange parseF64 _ _) h

theorem within_parsePriceUsdOz {sourceName : String} {body : List Char} {found : Option ℚ}
    (h : parsePriceUsdOz toLowercase parseF64 fromStr sourceName body = some found) :
    Within priceMinUsdOz priceMaxUsdOz found := by
  unfold parsePriceUsdOz at h
  split at h
  · cases h
    exact within_none _ _
  · split at h
    · cases h
      intro n hn
      obtain ⟨value, -, hvalue⟩ := Option.bind_eq_some_iff.mp hn
      exact within_findPriceInJson value n hvalue
    · exact within_searchWindows (within_lastNumberInRange parseF64 _ _) h

theorem exists_parseProductionTonnes_iff (sourceName : String) (body : List Char) :
    (∃ found, parseProductionTonnes toLowercase parseF64 sourceName body = some found) ↔
      ProductionReadable toLowercase parseF64 sourceName body := by
  unfold parseProductionTonnes ProductionReadable
  by_cases hskip : body = [] ∨ sourceName = "BullionVault"
  · simp [hskip]
  · rw [if_neg hskip, exists_searchProduction_iff, or_iff_right hskip]

theorem exists_parsePriceUsdOz_iff (sourceName : String) (body : List Char) :
    (∃ found, parsePriceUsdOz toLowercase parseF64 fromStr sourceName body = some found) ↔
      PriceReadable toLowercase parseF64 sourceName body := by
  unfold parsePriceUsdOz PriceReadable
  by_cases hempty : body = []
  · simp [hempty]
  · by_cases hname : sourceName = "BullionVault"
    · simp [hempty, hname]
    · rw [if_neg hempty, if_neg hname, exists_searchPrice_iff,
        or_iff_right (not_or.mpr ⟨hempty, hname⟩)]

/-- A page of single bytes, of which lower case has the same size, does not break. -/
theorem readable_of_ascii {body : List Char} (hascii : ∀ c ∈ body, c.utf8Size = 1)
    (hsize : Utf8.size (toLowercase body) = Utf8.size body) (sourceName : String) :
    ProductionReadable toLowercase parseF64 sourceName body ∧
      PriceReadable toLowercase parseF64 sourceName body := by
  have hcuts (n : ℕ) : ¬Utf8.CutsAt body n := Utf8.not_cutsAt_of_ascii hascii n
  constructor
  · right
    rintro ⟨front, kw, back, -, ⟨pos, hfind, hcut⟩, -⟩
    have hle := Utf8.find_add_size_le hfind
    dsimp only at hcut
    simp only [hcuts, false_or] at hcut
    omega
  · right
    rintro ⟨front, kw, back, -, ⟨pos, hfind, hcut⟩, -⟩
    have hle := Utf8.find_add_size_le hfind
    simp only [hcuts, false_or] at hcut
    omega

/-- For every page and source name, what the tool finds is within its bounds, and it panics exactly
where a byte at one of the offsets around a keyword goes on with a character or lies behind the end
of the page. This never happens in a page of single bytes, of which lower case has the same size. -/
theorem pages_readable_iff (sourceName : String) (body : List Char) :
    ((∃ found, parseProductionTonnes toLowercase parseF64 sourceName body = some found ∧
        Within prodMinTonnes prodMaxTonnes found) ↔
      ProductionReadable toLowercase parseF64 sourceName body) ∧
    ((∃ found, parsePriceUsdOz toLowercase parseF64 fromStr sourceName body = some found ∧
        Within priceMinUsdOz priceMaxUsdOz found) ↔
      PriceReadable toLowercase parseF64 sourceName body) ∧
    ((∀ c ∈ body, c.utf8Size = 1) → Utf8.size (toLowercase body) = Utf8.size body →
      (∃ found, parseProductionTonnes toLowercase parseF64 sourceName body = some found) ∧
        ∃ found, parsePriceUsdOz toLowercase parseF64 fromStr sourceName body = some found) := by
  rw [← exists_parseProductionTonnes_iff toLowercase parseF64 sourceName body,
    ← exists_parsePriceUsdOz_iff toLowercase parseF64 fromStr sourceName body]
  refine ⟨⟨?_, ?_⟩, ⟨?_, ?_⟩, fun hascii hsize => ?_⟩
  · rintro ⟨found, hfound, -⟩
    exact ⟨found, hfound⟩
  · rintro ⟨found, hfound⟩
    exact ⟨found, hfound, within_parseProductionTonnes toLowercase parseF64 hfound⟩
  · rintro ⟨found, hfound, -⟩
    exact ⟨found, hfound⟩
  · rintro ⟨found, hfound⟩
    exact ⟨found, hfound, within_parsePriceUsdOz toLowercase parseF64 fromStr hfound⟩
  · rw [exists_parseProductionTonnes_iff, exists_parsePriceUsdOz_iff]
    exact readable_of_ascii toLowercase parseF64 hascii hsize sourceName

end Result

/-- A page with a hundred characters of two bytes, one of one byte and a keyword. -/
def accentedPage : List Char := List.replicate 100 'é' ++ 'a' :: "tonne".toList

theorem find_accentedPage : Utf8.find "tonne".toList accentedPage = some 201 := by decide +kernel

theorem slice_accentedPage : Utf8.slice accentedPage 1 201 = none := by decide +kernel

/-- The window before the keyword begins inside a character, so reading the page panics. -/
theorem accented_page_panics : ∃ sourceName body, ∀ (toLowercase : List Char → List Char)
    (parseF64 : List Char → Option ℚ), toLowercase body = body →
      ¬∃ found, parseProductionTonnes toLowercase parseF64 sourceName body = some found := by
  refine ⟨"USGS", accentedPage, ?_⟩
  intro toLowercase parseF64 hlower
  rintro ⟨found, hfound⟩
  have hwindows : ∃ windows, productionWindows toLowercase accentedPage = (1, 201) :: windows := by
    unfold productionWindows productionKeywords
    rw [hlower, List.flatMap_cons, find_accentedPage]
    exact ⟨_, rfl⟩
  obtain ⟨windows, hwindows⟩ := hwindows
  unfold parseProductionTonnes at hfound
  rw [if_neg (by decide), hwindows] at hfound
  unfold searchWindows at hfound
  rw [slice_accentedPage] at hfound
  cases hfound

end Opolys.Ceremony
