import FlowGraph.Json.Printer
import FlowGraph.Json.Reader

/-! # JSON text

    The ways to write a JSON value, as a grammar: `Written j cs` says that the
    characters `cs` write the value `j`. Blanks may stand between the parts.

    * The reader takes every text of the grammar for the value that it writes
      (`parse?_of_written`).
    * The printer keeps to the grammar in both of its forms (`written_pretty`,
      `written_compact`).

    The value has to be `Readable`: of a string that is no text, or of a number
    that is no integer, more than the grammar has to be said.
-/

namespace FlowGraph

namespace Json

/-! ## Blanks -/

def Blank (cs : List Char) : Prop := ∀ c ∈ cs, isBlank c = true

theorem blank_nil : Blank [] := by simp [Blank]

theorem blank_newLine (depth : Nat) : Blank (newLine depth) := by
  intro c hc
  simp only [newLine, List.mem_cons, List.mem_replicate] at hc
  rcases hc with rfl | ⟨-, rfl⟩ <;> decide

theorem skipBlanks_append {bs : List Char} (h : Blank bs) (cs : List Char) :
    skipBlanks (bs ++ cs) = skipBlanks cs :=
  List.dropWhile_append_of_pos h

theorem skipBlanks_cons {c : Char} (h : isBlank c = false) (cs : List Char) :
    skipBlanks (c :: cs) = c :: cs :=
  List.dropWhile_cons_of_neg (by simp [h])

theorem skipBlanks_skipBlanks (cs : List Char) : skipBlanks (skipBlanks cs) = skipBlanks cs := by
  unfold skipBlanks
  induction cs with
  | nil => rfl
  | cons c cs ih =>
    by_cases hc : isBlank c = true
    · rw [List.dropWhile_cons_of_pos hc, ih]
    · rw [List.dropWhile_cons_of_neg hc, List.dropWhile_cons_of_neg hc]

/-! ## Strings -/

theorem hexDigit?_digitChar : ∀ n < 16, hexDigit? (Nat.digitChar n) = some n := by decide

/-- A letter behind a backslash. -/
theorem readPoints_simple {letter c : Char} (h : simpleEscape? letter = some c) (cs : List Char) :
    readPoints ('\\' :: letter :: cs) = (readPoints cs).map fun r => (c.toNat :: r.1, r.2) := by
  -- the rule for four hexadecimal digits comes first, and does not apply
  have hne : letter ≠ 'u' := by
    intro heq
    rw [heq] at h
    cases h
  rw [readPoints]
  · rw [h]
    cases readPoints cs <;> rfl
  · intro a b c d cs heq
    exact absurd heq hne

/-- A number behind a backslash. -/
theorem readPoints_unicode {n : Nat} (h : n < 32) (cs : List Char) :
    readPoints ('\\' :: 'u' :: '0' :: '0' :: Nat.digitChar (n / 16) :: Nat.digitChar (n % 16) :: cs) =
      (readPoints cs).map fun r => (n :: r.1, r.2) := by
  have hhigh := hexDigit?_digitChar (n / 16) (by omega)
  have hlow := hexDigit?_digitChar (n % 16) (by omega)
  have hzero : hexDigit? '0' = some 0 := by decide
  have hvalue : 4096 * 0 + 256 * 0 + 16 * (n / 16) + n % 16 = n := by omega
  rw [readPoints, hzero, hhigh, hlow]
  simp only [Option.bind_eq_bind, Option.bind_some, hvalue]
  cases readPoints cs <;> rfl

/-- A character for itself. -/
theorem readPoints_plain {c : Char} (hquote : c ≠ '"') (hescape : c ≠ '\\') (hcontrol : 32 ≤ c.toNat)
    (cs : List Char) : readPoints (c :: cs) = (readPoints cs).map fun r => (c.toNat :: r.1, r.2) := by
  rw [readPoints]
  · have hplain : (c == '\\' || decide (c.toNat < 32)) = false := by
      simp [hescape, hcontrol]
    rw [hplain]
    cases readPoints cs <;> rfl
  · exact hquote
  · intro a b c d cs heq
    exact absurd heq hescape
  · intro c cs heq
    exact absurd heq hescape

/-- A written character is read as its code. -/
theorem readPoints_escape (c : Char) (cs : List Char) :
    readPoints (escape c ++ cs) = (readPoints cs).map fun r => (c.toNat :: r.1, r.2) := by
  unfold escape
  split
  iterate 7 exact readPoints_simple rfl cs
  next hquote hescape _ _ _ _ _ =>
    by_cases hcontrol : c.toNat < 32
    · rw [if_pos hcontrol]
      exact readPoints_unicode hcontrol cs
    · rw [if_neg hcontrol]
      exact readPoints_plain hquote hescape (Nat.le_of_not_lt hcontrol) cs

theorem readPoints_escapes (s rest : List Char) :
    readPoints (s.flatMap escape ++ '"' :: rest) = some (s.map Char.toNat, rest) := by
  induction s with
  | nil => rw [List.flatMap_nil, List.nil_append, readPoints]; rfl
  | cons c s ih =>
    rw [List.flatMap_cons, List.append_assoc, readPoints_escape, ih]
    rfl

/-- The code of a character is not half of a pair. -/
theorem joinSurrogates_codes (s : List Char) : joinSurrogates (s.map Char.toNat) = some s := by
  have hhalf : ∀ c : Char, isHighSurrogate c.toNat = false ∧ isLowSurrogate c.toNat = false := by
    intro c
    have hvalid : c.toNat < 0xd800 ∨ 0xdfff < c.toNat ∧ c.toNat < 0x110000 := c.valid
    simp only [isHighSurrogate, isLowSurrogate, Bool.and_eq_false_iff, decide_eq_false_iff_not]
    omega
  induction s with
  | nil => rfl
  | cons c s ih =>
    obtain ⟨hhigh, hlow⟩ := hhalf c
    cases s with
    | nil => simp [joinSurrogates, hhigh, hlow]
    | cons c' s =>
      simp only [List.map_cons, joinSurrogates, hhigh, hlow] at ih ⊢
      rw [ih]
      simp

theorem readString_written (s : String) (rest : List Char) :
    readString (s.toList.flatMap escape ++ '"' :: rest) = some (some s, rest) := by
  unfold readString
  rw [readPoints_escapes]
  show some ((joinSurrogates (s.toList.map Char.toNat)).map String.ofList, rest) = _
  rw [joinSurrogates_codes, Option.map_some, String.ofList_toList]

theorem writeString_append (s : String) (cs : List Char) :
    writeString (some s) ++ cs = '"' :: (s.toList.flatMap escape ++ '"' :: cs) := by
  simp [writeString]

/-! ## Numbers -/

/-- The characters do not go on with a number that ended before them. -/
def Stops (cs : List Char) : Prop :=
  ∀ c ∈ cs.head?, isDigit c = false ∧ c ≠ '.' ∧ c ≠ 'e' ∧ c ≠ 'E'

/-- The characters write a number: whatever else follows, it is read. -/
structure NumberText (j : Json) (cs : List Char) : Prop where
  start : ∃ c ∈ cs.head?, c ∈ ['-', '0', '1', '2', '3', '4', '5', '6', '7', '8', '9']
  read : ∀ rest, Stops rest → readNumber (cs ++ rest) = some (j, rest)

/-- The characters do not go on with digits that ended before them. -/
def StopsDigits (cs : List Char) : Prop := ∀ c ∈ cs.head?, isDigit c = false

theorem Stops.stopsDigits {cs : List Char} (h : Stops cs) : StopsDigits cs := by
  intro c hc
  obtain ⟨hdigit, -⟩ := h c hc
  exact hdigit

theorem readDigits_append {digits rest : List Char} (hne : digits ≠ []) (hdigits : ∀ c ∈ digits, isDigit c = true)
    (hrest : StopsDigits rest) : readDigits (digits ++ rest) = some (digits, rest) := by
  have htake : rest.takeWhile isDigit = [] ∧ rest.dropWhile isDigit = rest := by
    cases rest with
    | nil => exact ⟨rfl, rfl⟩
    | cons c rest =>
      have hc := hrest c rfl
      simp [List.takeWhile, List.dropWhile, hc]
  unfold readDigits
  rw [List.takeWhile_append_of_pos hdigits, List.dropWhile_append_of_pos hdigits, htake.1, htake.2, List.append_nil]
  cases digits with
  | nil => exact absurd rfl hne
  | cons c digits => rfl

/-- Only the number zero is written with a zero in front. -/
theorem head?_toDigits {n : Nat} (h : n ≠ 0) : (Nat.toDigits 10 n).head? ≠ some '0' := by
  induction n using Nat.strongRecOn with
  | ind n ih =>
    by_cases hn : n < 10
    · rw [Nat.toDigits_of_lt_base hn]
      have hall : ∀ n < 10, n ≠ 0 → [Nat.digitChar n].head? ≠ some '0' := by decide
      exact hall n hn h
    · -- the first digit is also that of the number without its last digit
      rw [Nat.toDigits_of_base_le (by omega) (by omega)]
      have hfirst := ih (n / 10) (by omega) (by omega)
      cases hdigits : Nat.toDigits 10 (n / 10) with
      | nil => exact absurd hdigits Nat.toDigits_ne_nil
      | cons c cs =>
        rw [hdigits] at hfirst
        exact hfirst

/-- Digits before the point are read, unless a zero stands in front of others. -/
theorem readWhole_append {digits rest : List Char} (hne : digits ≠ []) (hdigits : ∀ c ∈ digits, isDigit c = true)
    (hzero : digits.head? = some '0' → digits = ['0']) (hrest : StopsDigits rest) :
    readWhole (digits ++ rest) = some (digits, rest) := by
  have hread := readDigits_append hne hdigits hrest
  cases digits with
  | nil => exact absurd rfl hne
  | cons c cs =>
    rw [List.cons_append] at hread ⊢
    unfold readWhole
    split
    · next heq =>
      cases heq
      cases hzero rfl
      rfl
    · exact hread

theorem isDigit_of_mem_toDigits {n : Nat} {c : Char} (h : c ∈ Nat.toDigits 10 n) : isDigit c = true :=
  Nat.isDigit_of_mem_toDigits (by omega) (by omega) h

theorem readWhole_toDigits (n : Nat) {rest : List Char} (hrest : StopsDigits rest) :
    readWhole (Nat.toDigits 10 n ++ rest) = some (Nat.toDigits 10 n, rest) := by
  refine readWhole_append Nat.toDigits_ne_nil (fun c => isDigit_of_mem_toDigits) ?_ hrest
  intro hzero
  by_cases hn : n = 0
  · rw [hn]
    rfl
  · exact absurd hzero (head?_toDigits hn)

theorem readFraction_stops {cs : List Char} (h : Stops cs) : readFraction cs = some ([], cs) := by
  unfold readFraction
  split
  · obtain ⟨-, hpoint, -⟩ := h '.' rfl
    exact absurd rfl hpoint
  · rfl

theorem readExponent_stops {cs : List Char} (h : Stops cs) : readExponent cs = some (none, cs) := by
  cases cs with
  | nil => rfl
  | cons c cs =>
    obtain ⟨-, -, hlower, hupper⟩ := h c rfl
    have hletter : (c == 'e' || c == 'E') = false := by simp [hlower, hupper]
    simp [readExponent, hletter]

/-- Neither a fraction nor an exponent follows. -/
theorem readUnsigned_toDigits {negative : Bool} {n : Nat} (hn : negative = true → n ≠ 0) {rest : List Char}
    (hrest : Stops rest) : readUnsigned negative (Nat.toDigits 10 n ++ rest) =
      some (.integer (if negative then -(n : Int) else n), rest) := by
  have hvalue : digitsValue (Nat.toDigits 10 n) = n := Nat.ofDigitChars_ten_toDigits
  have hzero : (negative && n = 0 : Bool) = false := by simpa using hn
  unfold readUnsigned
  rw [readWhole_toDigits n hrest.stopsDigits]
  simp only [Option.bind_eq_bind, Option.bind_some, readFraction_stops hrest, readExponent_stops hrest, hvalue, hzero]
  rfl

theorem mem_digits {c : Char} (h : c.isDigit = true) : c ∈ ['0', '1', '2', '3', '4', '5', '6', '7', '8', '9'] := by
  have hbounds : 48 ≤ c.toNat ∧ c.toNat ≤ 57 := by simpa [Char.isDigit, UInt32.le_iff_toNat_le] using h
  have hall : ∀ code < 58, 48 ≤ code → Char.ofNat code ∈ ['0', '1', '2', '3', '4', '5', '6', '7', '8', '9'] := by
    decide
  rw [← Char.ofNat_toNat c]
  exact hall c.toNat (by omega) hbounds.1

theorem exists_head?_toDigits (n : Nat) :
    ∃ c ∈ (Nat.toDigits 10 n).head?, c ∈ ['0', '1', '2', '3', '4', '5', '6', '7', '8', '9'] := by
  cases hlist : Nat.toDigits 10 n with
  | nil => exact absurd hlist Nat.toDigits_ne_nil
  | cons c cs =>
    have hmem : c ∈ Nat.toDigits 10 n := hlist ▸ List.mem_cons_self
    exact ⟨c, rfl, mem_digits (isDigit_of_mem_toDigits hmem)⟩

theorem numberText_integer (n : Int) : NumberText (.integer n) (writeInteger n) := by
  unfold writeInteger
  by_cases hn : n < 0
  · rw [if_pos hn]
    refine ⟨⟨'-', rfl, List.mem_cons_self⟩, ?_⟩
    intro rest hrest
    show readUnsigned true (Nat.toDigits 10 n.natAbs ++ rest) = _
    have hne : n.natAbs ≠ 0 := by omega
    have hvalue : -(n.natAbs : Int) = n := by omega
    rw [readUnsigned_toDigits (fun _ => hne) hrest, if_pos rfl, hvalue]
  · rw [if_neg hn]
    obtain ⟨c, hc, hdigit⟩ := exists_head?_toDigits n.natAbs
    refine ⟨⟨c, hc, List.mem_cons_of_mem _ hdigit⟩, ?_⟩
    intro rest hrest
    have hvalue : (n.natAbs : Int) = n := by omega
    have hread : readUnsigned false (Nat.toDigits 10 n.natAbs ++ rest) = _ := readUnsigned_toDigits (by simp) hrest
    rw [if_neg (by decide), hvalue] at hread
    -- the first character is a digit and not a sign
    obtain ⟨cs, hlist⟩ := List.head?_eq_some_iff.mp hc
    unfold readNumber
    split
    · next heq =>
      rw [hlist] at heq
      cases heq
      exact absurd hdigit (by decide)
    · exact hread

/-! ## Values -/

mutual

/-- The characters write the value, without a blank before or behind it. -/
inductive Written : Json → List Char → Prop
  | null : Written .null ['n', 'u', 'l', 'l']
  | yes : Written (.boolean true) ['t', 'r', 'u', 'e']
  | no : Written (.boolean false) ['f', 'a', 'l', 's', 'e']
  | number {j cs} : NumberText j cs → Written j cs
  | string (s : String) : Written (.string (some s)) (writeString (some s))
  | noItems {bs} : Blank bs → Written (.array []) ('[' :: (bs ++ [']']))
  | array {items cs} : WrittenItems items cs → Written (.array items) ('[' :: cs)
  | noMembers {bs} : Blank bs → Written (.object []) ('\x7b' :: (bs ++ ['\x7d']))
  | object {members cs} : WrittenMembers members cs → Written (.object members) ('\x7b' :: cs)

/-- One item or more, and the closing bracket. -/
inductive WrittenItems : List Json → List Char → Prop
  | last {before j cs behind} : Blank before → Written j cs → Blank behind →
    WrittenItems [j] (before ++ (cs ++ (behind ++ [']'])))
  | cons {before j cs behind items cs'} : Blank before → Written j cs → Blank behind →
    WrittenItems items cs' → WrittenItems (j :: items) (before ++ (cs ++ (behind ++ ',' :: cs')))

/-- One member or more, and the closing brace. -/
inductive WrittenMembers : List (Option String × Json) → List Char → Prop
  | last {before colon after j cs behind} (key : String) : Blank before → Blank colon → Blank after →
    Written j cs → Blank behind →
    WrittenMembers [(some key, j)]
      (before ++ (writeString (some key) ++ (colon ++ ':' :: (after ++ (cs ++ (behind ++ ['\x7d']))))))
  | cons {before colon after j cs behind members cs'} (key : String) : Blank before → Blank colon →
    Blank after → Written j cs → Blank behind → WrittenMembers members cs' →
    WrittenMembers ((some key, j) :: members)
      (before ++ (writeString (some key) ++ (colon ++ ':' :: (after ++ (cs ++ (behind ++ ',' :: cs'))))))

end

/-! ## Reading -/

theorem stops_append {bs cs : List Char} (hbs : Blank bs) (hcs : Stops cs) : Stops (bs ++ cs) := by
  cases bs with
  | nil => exact hcs
  | cons b bs =>
    intro c hc
    obtain rfl : b = c := by simpa using hc
    have hb := hbs b List.mem_cons_self
    simp only [isBlank, Bool.or_eq_true, beq_iff_eq] at hb
    rcases hb with ((rfl | rfl) | rfl) | rfl <;> decide

theorem readValue_skipBlanks (n : Nat) (cs : List Char) : readValue n (skipBlanks cs) = readValue n cs := by
  cases n with
  | zero => rfl
  | succ n => rw [readValue, readValue, skipBlanks_skipBlanks]

theorem readValue_blanks {bs : List Char} (h : Blank bs) (n : Nat) (cs : List Char) :
    readValue n (bs ++ cs) = readValue n cs := by
  rw [← readValue_skipBlanks, skipBlanks_append h, readValue_skipBlanks]

theorem skipBlanks_stop {bs : List Char} (h : Blank bs) {c : Char} (hc : isBlank c = false) (cs : List Char) :
    skipBlanks (bs ++ c :: cs) = c :: cs := by
  rw [skipBlanks_append h, skipBlanks_cons hc]

theorem readValue_number {j : Json} {cs : List Char} (h : NumberText j cs) (n : Nat) {rest : List Char}
    (hrest : Stops rest) : readValue (n + 1) (cs ++ rest) = some (j, rest) := by
  obtain ⟨c, hc, hstart⟩ := h.start
  obtain ⟨cs, rfl⟩ := List.head?_eq_some_iff.mp hc
  have hread := h.read rest hrest
  -- no other value starts like that
  simp only [List.mem_cons, List.not_mem_nil, or_false] at hstart
  rcases hstart with rfl | rfl | rfl | rfl | rfl | rfl | rfl | rfl | rfl | rfl | rfl <;> exact hread

theorem readValue_string (n : Nat) (s : String) (rest : List Char) :
    readValue (n + 1) (writeString (some s) ++ rest) = some (.string (some s), rest) := by
  rw [writeString_append]
  show (readString (s.toList.flatMap escape ++ '"' :: rest)).map _ = _
  rw [readString_written]
  rfl

theorem readValue_noItems (n : Nat) {bs : List Char} (h : Blank bs) (rest : List Char) :
    readValue (n + 1) ('[' :: (bs ++ ']' :: rest)) = some (.array [], rest) := by
  have hskip : skipBlanks ('[' :: (bs ++ ']' :: rest)) = '[' :: (bs ++ ']' :: rest) := rfl
  rw [readValue]
  simp only [hskip, skipBlanks_stop h (c := ']') rfl]

theorem readValue_noMembers (n : Nat) {bs : List Char} (h : Blank bs) (rest : List Char) :
    readValue (n + 1) ('\x7b' :: (bs ++ '\x7d' :: rest)) = some (.object [], rest) := by
  have hskip : skipBlanks ('\x7b' :: (bs ++ '\x7d' :: rest)) = '\x7b' :: (bs ++ '\x7d' :: rest) := rfl
  rw [readValue]
  simp only [hskip, skipBlanks_stop h (c := '\x7d') rfl]

/-- An array that has items. -/
theorem readValue_array (n : Nat) {cs : List Char} (h : (skipBlanks cs).head? ≠ some ']') :
    readValue (n + 1) ('[' :: cs) = (readItems n cs).map fun r => (.array r.1, r.2) := by
  have hskip : skipBlanks ('[' :: cs) = '[' :: cs := rfl
  have hitems : readItems n (skipBlanks cs) = readItems n cs := by
    cases n with
    | zero => rfl
    | succ n => rw [readItems, readItems, readValue_skipBlanks]
  rw [readValue]
  simp only [hskip]
  split
  · next heq => simp [heq] at h
  · rw [hitems]

/-- An object that has members. -/
theorem readValue_object (n : Nat) {cs : List Char} (h : (skipBlanks cs).head? ≠ some '\x7d') :
    readValue (n + 1) ('\x7b' :: cs) = (readMembers n cs).map fun r => (.object r.1, r.2) := by
  have hskip : skipBlanks ('\x7b' :: cs) = '\x7b' :: cs := rfl
  have hmembers : readMembers n (skipBlanks cs) = readMembers n cs := by
    cases n with
    | zero => rfl
    | succ n => rw [readMembers, readMembers, skipBlanks_skipBlanks]
  rw [readValue]
  simp only [hskip]
  split
  · next heq => simp [heq] at h
  · rw [hmembers]

section

variable {n : Nat} {j : Json} {cs behind rest : List Char}

theorem readItems_last (h : readValue n cs = some (j, behind ++ ']' :: rest)) (hbehind : Blank behind) :
    readItems (n + 1) cs = some ([j], rest) := by
  rw [readItems, h]
  simp only [Option.bind_eq_bind, Option.bind_some, skipBlanks_stop hbehind (c := ']') rfl]
  rfl

theorem readItems_cons {cs' : List Char} {items : List Json} (h : readValue n cs = some (j, behind ++ ',' :: cs'))
    (hbehind : Blank behind) (hitems : readItems n cs' = some (items, rest)) :
    readItems (n + 1) cs = some (j :: items, rest) := by
  rw [readItems, h]
  simp only [Option.bind_eq_bind, Option.bind_some, skipBlanks_stop hbehind (c := ',') rfl, hitems]
  rfl

variable {before colon cs' : List Char}

theorem readMembers_last (key : String) (hbefore : Blank before) (hcolon : Blank colon)
    (h : readValue n cs = some (j, behind ++ '\x7d' :: rest)) (hbehind : Blank behind) :
    readMembers (n + 1) (before ++ (writeString (some key) ++ (colon ++ ':' :: cs))) =
      some ([(some key, j)], rest) := by
  rw [writeString_append, readMembers, skipBlanks_stop hbefore rfl]
  simp only [readString_written, Option.bind_eq_bind, Option.bind_some, skipBlanks_stop hcolon (c := ':') rfl, h,
    skipBlanks_stop hbehind (c := '\x7d') rfl]
  rfl

theorem readMembers_cons (key : String) (hbefore : Blank before) (hcolon : Blank colon)
    (h : readValue n cs = some (j, behind ++ ',' :: cs')) (hbehind : Blank behind)
    {members : List (Option String × Json)} (hmembers : readMembers n cs' = some (members, rest)) :
    readMembers (n + 1) (before ++ (writeString (some key) ++ (colon ++ ':' :: cs))) =
      some ((some key, j) :: members, rest) := by
  rw [writeString_append, readMembers, skipBlanks_stop hbefore rfl]
  simp only [readString_written, Option.bind_eq_bind, Option.bind_some, skipBlanks_stop hcolon (c := ':') rfl, h,
    skipBlanks_stop hbehind (c := ',') rfl, hmembers]
  rfl

end

/-! ## Whatever is written is read -/

/-- What a value starts with. -/
theorem Written.start {j : Json} {cs : List Char} (h : Written j cs) :
    ∃ c cs', cs = c :: cs' ∧ isBlank c = false ∧ c ≠ ']' := by
  cases h with
  | number h =>
    obtain ⟨c, hc, hstart⟩ := h.start
    obtain ⟨cs, rfl⟩ := List.head?_eq_some_iff.mp hc
    have hall : ∀ c ∈ ['-', '0', '1', '2', '3', '4', '5', '6', '7', '8', '9'], isBlank c = false ∧ c ≠ ']' := by
      simp [isBlank]
    exact ⟨c, cs, rfl, hall c hstart⟩
  | string s => exact ⟨'"', _, rfl, by decide⟩
  | null | yes | no | noItems | array | noMembers | object => exact ⟨_, _, rfl, by decide⟩

theorem WrittenItems.start {items : List Json} {cs : List Char} (h : WrittenItems items cs) (rest : List Char) :
    (skipBlanks (cs ++ rest)).head? ≠ some ']' := by
  cases h with
  | last hbefore h _ | cons hbefore h _ _ =>
    obtain ⟨c, cs, rfl, hblank, hne⟩ := h.start
    rw [List.append_assoc, List.cons_append, List.cons_append, skipBlanks_stop hbefore hblank]
    simpa using hne

theorem WrittenMembers.start {members : List (Option String × Json)} {cs : List Char}
    (h : WrittenMembers members cs) (rest : List Char) : (skipBlanks (cs ++ rest)).head? ≠ some '\x7d' := by
  cases h with
  | last key hbefore _ _ _ _ | cons key hbefore _ _ _ _ _ =>
    rw [List.append_assoc, writeString_append, List.cons_append, skipBlanks_stop hbefore rfl]
    simp

/-- A number is over where the item or the member is. -/
theorem stops_cons {c : Char} (h : c ∈ [',', ']', '\x7d']) (cs : List Char) : Stops (c :: cs) := by
  have hall : ∀ c ∈ [',', ']', '\x7d'], isDigit c = false ∧ c ≠ '.' ∧ c ≠ 'e' ∧ c ≠ 'E' := by
    simp [isDigit]
  intro c' hc'
  cases hc'
  exact hall c h

mutual

/-- The reader needs no more nested calls than there are characters. -/
theorem Written.read {j : Json} {cs : List Char} (h : Written j cs) {n : Nat} (hn : cs.length ≤ n)
    {rest : List Char} (hrest : Stops rest) : readValue n (cs ++ rest) = some (j, rest) := by
  cases n with
  | zero =>
    -- a value takes at least one character
    obtain ⟨c, cs', rfl, -⟩ := h.start
    cases hn
  | succ n =>
    cases h with
    | null | yes | no => rfl
    | number h => exact readValue_number h n hrest
    | string s => exact readValue_string n s rest
    | noItems h =>
      rw [List.cons_append, List.append_assoc]
      exact readValue_noItems n h rest
    | array h =>
      rw [List.cons_append, readValue_array n (h.start rest), h.read (Nat.le_of_succ_le_succ hn) rest]
      rfl
    | noMembers h =>
      rw [List.cons_append, List.append_assoc]
      exact readValue_noMembers n h rest
    | object h =>
      rw [List.cons_append, readValue_object n (h.start rest), h.read (Nat.le_of_succ_le_succ hn) rest]
      rfl

theorem WrittenItems.read {items : List Json} {cs : List Char} (h : WrittenItems items cs) {n : Nat}
    (hn : cs.length ≤ n) (rest : List Char) : readItems n (cs ++ rest) = some (items, rest) := by
  cases h with
  | last hbefore h hbehind =>
    -- the bracket is a character of its own, so the value is shorter
    simp only [List.length_append, List.length_cons, List.length_nil] at hn
    obtain ⟨n, rfl⟩ : ∃ m, n = m + 1 := ⟨n - 1, by omega⟩
    have hstops := stops_append hbehind (stops_cons (c := ']') (by decide) rest)
    have hread := h.read (n := n) (by omega) hstops
    simp only [List.append_assoc, List.cons_append, List.nil_append]
    refine readItems_last ?_ hbehind
    rw [readValue_blanks hbefore, hread]
  | @cons _ _ _ _ _ others hbefore h hbehind hitems =>
    simp only [List.length_append, List.length_cons] at hn
    obtain ⟨n, rfl⟩ : ∃ m, n = m + 1 := ⟨n - 1, by omega⟩
    have hothers := hitems.read (n := n) (by omega) rest
    have hstops := stops_append hbehind (stops_cons (c := ',') (by decide) (others ++ rest))
    have hread := h.read (n := n) (by omega) hstops
    simp only [List.append_assoc, List.cons_append]
    refine readItems_cons ?_ hbehind hothers
    rw [readValue_blanks hbefore, hread]

theorem WrittenMembers.read {members : List (Option String × Json)} {cs : List Char} (h : WrittenMembers members cs)
    {n : Nat} (hn : cs.length ≤ n) (rest : List Char) : readMembers n (cs ++ rest) = some (members, rest) := by
  cases h with
  | last key hbefore hcolon hafter h hbehind =>
    simp only [List.length_append, List.length_cons, List.length_nil] at hn
    obtain ⟨n, rfl⟩ : ∃ m, n = m + 1 := ⟨n - 1, by omega⟩
    have hstops := stops_append hbehind (stops_cons (c := '\x7d') (by decide) rest)
    have hread := h.read (n := n) (by omega) hstops
    simp only [List.append_assoc, List.cons_append, List.nil_append]
    refine readMembers_last key hbefore hcolon ?_ hbehind
    rw [readValue_blanks hafter, hread]
  | @cons _ _ _ _ _ _ _ others key hbefore hcolon hafter h hbehind hmembers =>
    simp only [List.length_append, List.length_cons] at hn
    obtain ⟨n, rfl⟩ : ∃ m, n = m + 1 := ⟨n - 1, by omega⟩
    have hothers := hmembers.read (n := n) (by omega) rest
    have hstops := stops_append hbehind (stops_cons (c := ',') (by decide) (others ++ rest))
    have hread := h.read (n := n) (by omega) hstops
    simp only [List.append_assoc, List.cons_append]
    refine readMembers_cons key hbefore hcolon ?_ hbehind hothers
    rw [readValue_blanks hafter, hread]

end

/-- A whole text that writes a value is read as that value. -/
theorem parse?_of_written {j : Json} {cs bs : List Char} (h : Written j cs) (hbs : Blank bs) :
    parse? (String.ofList (cs ++ bs)) = some j := by
  have hstops : Stops (bs ++ []) := stops_append hbs (by simp [Stops])
  have hskip : skipBlanks (bs ++ []) = [] := skipBlanks_append hbs []
  rw [List.append_nil] at hstops hskip
  unfold parse?
  rw [String.toList_ofList]
  -- what is left to read is blank
  have hread := h.read (n := 2 * (cs ++ bs).length + 1) (by simp only [List.length_append]; omega) hstops
  simp only [hread, hskip]
  rfl

/-! ## Printing -/

/-- All of the value can be read back from its text: every string is a text, and
    a number that is no integer is one that the reader takes. -/
inductive Readable : Json → Prop
  | null : Readable .null
  | boolean (b : Bool) : Readable (.boolean b)
  | integer (n : Int) : Readable (.integer n)
  | real {numeral : Numeral} : NumberText (.real numeral) (writeReal numeral) → Readable (.real numeral)
  | string (s : String) : Readable (.string (some s))
  | array {items : List Json} : (∀ item ∈ items, Readable item) → Readable (.array items)
  | object {members : List (Option String × Json)} : (∀ m ∈ members, m.1.isSome) →
    (∀ m ∈ members, Readable m.2) → Readable (.object members)

theorem writtenItems_pretty (depth : Nat) (items : List Json) {first : Json}
    (h : ∀ item ∈ first :: items, Written item (writePretty (depth + 1) item)) :
    WrittenItems (first :: items)
      (newLine (depth + 1) ++ (writePretty (depth + 1) first ++ writePrettyItems depth items)) := by
  induction items generalizing first with
  | nil =>
    rw [writePrettyItems]
    exact .last (blank_newLine _) (h first List.mem_cons_self) (blank_newLine _)
  | cons item items ih =>
    obtain ⟨hfirst, hrest⟩ := List.forall_mem_cons.mp h
    have hitems := WrittenItems.cons (blank_newLine (depth + 1)) hfirst blank_nil (ih hrest)
    rw [writePrettyItems]
    simpa using hitems

theorem writtenMembers_pretty (depth : Nat) (members : List (Option String × Json)) (key : String) {value : Json}
    (hvalue : Written value (writePretty (depth + 1) value))
    (hkeys : ∀ m ∈ members, m.1.isSome) (h : ∀ m ∈ members, Written m.2 (writePretty (depth + 1) m.2)) :
    WrittenMembers ((some key, value) :: members)
      (newLine (depth + 1) ++ (writeString (some key) ++
        ':' :: ' ' :: (writePretty (depth + 1) value ++ writePrettyMembers depth members))) := by
  have hgap : Blank [' '] := by simp [Blank, isBlank]
  induction members generalizing key value with
  | nil =>
    rw [writePrettyMembers]
    exact .last key (blank_newLine _) blank_nil hgap hvalue (blank_newLine _)
  | cons m members ih =>
    obtain ⟨hkey, hothers⟩ := List.forall_mem_cons.mp hkeys
    obtain ⟨hm, hrest⟩ := List.forall_mem_cons.mp h
    obtain ⟨key', value'⟩ := m
    obtain ⟨key', rfl⟩ := Option.isSome_iff_exists.mp hkey
    have hmembers := ih key' hm hothers hrest
    have hall := WrittenMembers.cons key (blank_newLine (depth + 1)) blank_nil hgap hvalue blank_nil hmembers
    rw [writePrettyMembers]
    simpa using hall

theorem written_pretty {j : Json} (h : Readable j) (depth : Nat) : Written j (writePretty depth j) := by
  induction h generalizing depth with
  | null => exact .null
  | boolean b => cases b <;> constructor
  | integer n => exact .number (numberText_integer n)
  | real h => exact .number h
  | string s => exact .string s
  | @array items _ ih =>
    -- an empty array is printed on one line
    cases items with
    | nil => exact .noItems blank_nil
    | cons first items =>
      have hitems := writtenItems_pretty depth items fun item hitem => ih item hitem (depth + 1)
      rw [writePretty]
      simpa using Written.array hitems
  | @object members hkeys _ ih =>
    cases members with
    | nil => exact .noMembers blank_nil
    | cons m members =>
      obtain ⟨hkey, hothers⟩ := List.forall_mem_cons.mp hkeys
      obtain ⟨hvalue, hrest⟩ := List.forall_mem_cons.mp ih
      obtain ⟨key, value⟩ := m
      obtain ⟨key, rfl⟩ := Option.isSome_iff_exists.mp hkey
      have hmembers := writtenMembers_pretty depth members key (hvalue (depth + 1)) hothers
        fun m hm => hrest m hm (depth + 1)
      rw [writePretty]
      simpa using Written.object hmembers

theorem writtenItems_compact (items : List Json) {first : Json}
    (h : ∀ item ∈ first :: items, Written item (writeCompact item)) :
    WrittenItems (first :: items) (writeCompactItems (first :: items)) := by
  induction items generalizing first with
  | nil =>
    rw [writeCompactItems]
    exact .last blank_nil (h first List.mem_cons_self) blank_nil
  | cons item items ih =>
    obtain ⟨hfirst, hrest⟩ := List.forall_mem_cons.mp h
    rw [writeCompactItems]
    · exact .cons blank_nil hfirst blank_nil (ih hrest)
    · simp

theorem writtenMembers_compact (members : List (Option String × Json)) (key : String) {value : Json}
    (hvalue : Written value (writeCompact value)) (hkeys : ∀ m ∈ members, m.1.isSome)
    (h : ∀ m ∈ members, Written m.2 (writeCompact m.2)) :
    WrittenMembers ((some key, value) :: members) (writeCompactMembers ((some key, value) :: members)) := by
  induction members generalizing key value with
  | nil =>
    have hlast := WrittenMembers.last key blank_nil blank_nil blank_nil hvalue blank_nil
    rw [writeCompactMembers]
    simpa using hlast
  | cons m members ih =>
    obtain ⟨hkey, hothers⟩ := List.forall_mem_cons.mp hkeys
    obtain ⟨hm, hrest⟩ := List.forall_mem_cons.mp h
    obtain ⟨key', value'⟩ := m
    obtain ⟨key', rfl⟩ := Option.isSome_iff_exists.mp hkey
    have hmembers := ih key' hm hothers hrest
    have hall := WrittenMembers.cons key blank_nil blank_nil blank_nil hvalue blank_nil hmembers
    rw [writeCompactMembers]
    · simpa using hall
    · simp

theorem written_compact {j : Json} (h : Readable j) : Written j (writeCompact j) := by
  induction h with
  | null => exact .null
  | boolean b => cases b <;> constructor
  | integer n => exact .number (numberText_integer n)
  | real h => exact .number h
  | string s => exact .string s
  | @array items _ ih =>
    cases items with
    | nil => exact .noItems blank_nil
    | cons first items => exact .array (writtenItems_compact items ih)
  | @object members hkeys _ ih =>
    cases members with
    | nil => exact .noMembers blank_nil
    | cons m members =>
      obtain ⟨hkey, hothers⟩ := List.forall_mem_cons.mp hkeys
      obtain ⟨hvalue, hrest⟩ := List.forall_mem_cons.mp ih
      obtain ⟨key, value⟩ := m
      obtain ⟨key, rfl⟩ := Option.isSome_iff_exists.mp hkey
      exact .object (writtenMembers_compact members key hvalue hothers hrest)

end Json

end FlowGraph
