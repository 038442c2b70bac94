import Mathlib.Tactic
import FlowGraph.Proofs.JsonText
import FlowGraph.Proofs.Shortest

/-! # Numbers in JSON text

    A numeral that the grammar allows, and that is no integer, is read from its
    text as it was written (`Json.numberText_real`). So whether a double comes
    back from a text hangs on the reader and the printer of numbers alone
    (`Json.Numbers.Keeps`).

    If a numeral is read as the nearest double, all finite doubles come back
    (`Json.Numbers.keeps_exact`): the decimal that is written has no final
    zeros (`Decimal.Normal`), so it is the one that is found. The usual reader
    loses a few (`Json.Numbers.not_keeps_standard`).
-/

namespace FlowGraph

namespace Decimal

/-! ## Decimals without final zeros -/

/-- Zero is written in one way only. -/
def Normal (d : Decimal) : Prop := d = ⟨0, 0⟩ ∨ d.digits % 10 ≠ 0

theorem dropZeros_mul_pow {n : ℕ} (hn : n % 10 ≠ 0) {zeros count : ℕ} (hcount : zeros ≤ count) (exponent : ℤ) :
    dropZeros count ⟨n * 10 ^ zeros, exponent⟩ = ⟨n, exponent + zeros⟩ := by
  induction zeros generalizing count exponent with
  | zero =>
    cases count with
    | zero => simp [dropZeros]
    | succ count => simp [dropZeros, hn]
  | succ zeros ih =>
    obtain ⟨count, rfl⟩ : ∃ m, count = m + 1 := ⟨count - 1, by omega⟩
    have hlast : n * 10 ^ (zeros + 1) = 10 * (n * 10 ^ zeros) := by ring
    have hexponent : exponent + 1 + zeros = exponent + (zeros + 1 : ℕ) := by
      push_cast
      ring
    rw [dropZeros, hlast]
    simp only [Nat.mul_mod_right, if_true, Nat.mul_div_cancel_left _ (by decide : 0 < 10)]
    rw [ih (by omega), hexponent]

theorem normalize_mul_pow {n : ℕ} (hn : n % 10 ≠ 0) (zeros : ℕ) (exponent : ℤ) :
    normalize ⟨n * 10 ^ zeros, exponent⟩ = ⟨n, exponent + zeros⟩ := by
  have hpos : 0 < n := by omega
  have hne : n * 10 ^ zeros ≠ 0 := by positivity
  have hcount : zeros ≤ (n * 10 ^ zeros).log2 := by
    rw [Nat.le_log2 hne]
    calc 2 ^ zeros ≤ 10 ^ zeros := Nat.pow_le_pow_left (by decide) zeros
      _ ≤ n * 10 ^ zeros := Nat.le_mul_of_pos_left _ hpos
  rw [normalize, if_neg hne, dropZeros_mul_pow hn hcount]

theorem normal_normalize (d : Decimal) : d.normalize.Normal := by
  by_cases hzero : d.digits = 0
  · rw [normalize, if_pos hzero]
    exact .inl rfl
  · obtain ⟨zeros, n, hn, hdigits⟩ := Nat.exists_eq_pow_mul_and_not_dvd hzero 10 (by decide)
    have hlast : n % 10 ≠ 0 := by omega
    obtain ⟨digits, exponent⟩ := d
    obtain rfl : digits = n * 10 ^ zeros := by rw [Nat.mul_comm, ← hdigits]
    rw [normalize_mul_pow hlast]
    exact .inr hlast

/-- Zeros that are added behind the digits are dropped again. -/
theorem Normal.normalize_mul_pow {d : Decimal} (h : d.Normal) (zeros : ℕ) :
    normalize ⟨d.digits * 10 ^ zeros, d.exponent - zeros⟩ = d := by
  rcases h with rfl | hlast
  · simp [normalize]
  · rw [Decimal.normalize_mul_pow hlast, sub_add_cancel]

theorem Normal.normalize_eq {d : Decimal} (h : d.Normal) : d.normalize = d := by
  simpa using h.normalize_mul_pow 0

end Decimal

theorem Double.normal_shortest (tie : Tie) (mantissa : ℕ) (scale : ℤ) : (shortest tie mantissa scale).Normal := by
  unfold shortest
  split
  · exact .inl rfl
  · exact Decimal.normal_normalize _

namespace Json

/-! ## Digits -/

structure DigitText (cs : List Char) : Prop where
  ne_nil : cs ≠ []
  isDigit : ∀ c ∈ cs, Json.isDigit c = true

/-- Digits before the point. -/
structure WholeText (cs : List Char) : Prop extends DigitText cs where
  zero : cs.head? = some '0' → cs = ['0']

theorem isDigit_of_mem_zeros {count : ℕ} {c : Char} (h : c ∈ List.replicate count '0') : isDigit c = true := by
  rw [(List.mem_replicate.mp h).2]
  rfl

theorem digitText_toDigits (n : ℕ) : DigitText (Nat.toDigits 10 n) :=
  ⟨Nat.toDigits_ne_nil, fun _ => isDigit_of_mem_toDigits⟩

theorem digitsValue_append (xs ys : List Char) :
    digitsValue (xs ++ ys) = digitsValue xs * 10 ^ ys.length + digitsValue ys := by
  have hsplit : Nat.ofDigitChars 10 (xs ++ ys) 0 = 10 ^ ys.length * Nat.ofDigitChars 10 xs 0 + Nat.ofDigitChars 10 ys 0 := by
    rw [Nat.ofDigitChars_append, Nat.ofDigitChars_eq_ofDigitChars_zero]
  rw [Nat.mul_comm]
  exact hsplit

theorem digitsValue_zeros (count : ℕ) : digitsValue (List.replicate count '0') = 0 := by
  have hzeros : Nat.ofDigitChars 10 (List.replicate count '0') 0 = 10 ^ count * 0 := Nat.ofDigitChars_replicate_zero
  rw [Nat.mul_zero] at hzeros
  exact hzeros

theorem digitsValue_toDigits (n : ℕ) : digitsValue (Nat.toDigits 10 n) = n := Nat.ofDigitChars_ten_toDigits

theorem stopsDigits_cons {c : Char} (h : isDigit c = false) (cs : List Char) : StopsDigits (c :: cs) := by
  intro c' hc'
  cases hc'
  exact h

end Json

/-! ## Numerals -/

namespace Numeral

open Json

/-- The grammar has the numeral, and it is not an integer. -/
structure Proper (n : Numeral) : Prop where
  whole : WholeText n.whole
  fraction : ∀ c ∈ n.fraction, Json.isDigit c = true
  real : n.fraction ≠ [] ∨ n.exponent.isSome = true

variable {n : Numeral} {rest : List Char}

theorem readExponent_exponentText (n : Numeral) (hrest : Stops rest) :
    readExponent (n.exponentText Layout.json.exponentSign ++ rest) = some (n.exponent, rest) := by
  cases hexponent : n.exponent with
  | none =>
    simp only [exponentText, hexponent, List.nil_append]
    exact readExponent_stops hrest
  | some e =>
    have hdigits := digitText_toDigits e.natAbs
    have hread := readDigits_append hdigits.ne_nil hdigits.isDigit hrest.stopsDigits
    have hvalue := digitsValue_toDigits e.natAbs
    simp only [exponentText, hexponent]
    split
    · show (readDigits (Nat.toDigits 10 e.natAbs ++ rest)).map _ = _
      simp only [hread, Option.map_some, hvalue]
      congr
      omega
    · show (readDigits (Nat.toDigits 10 e.natAbs ++ rest)).map _ = _
      simp only [hread, Option.map_some, hvalue]
      congr
      omega

/-- Behind the digits stands neither a digit nor a point. -/
theorem exponentText_ends (n : Numeral) (hrest : Stops rest) :
    ∀ c ∈ (n.exponentText Layout.json.exponentSign ++ rest).head?, Json.isDigit c = false ∧ c ≠ '.' := by
  intro c hc
  cases hexponent : n.exponent with
  | none =>
    simp only [exponentText, hexponent, List.nil_append] at hc
    exact ⟨(hrest c hc).1, (hrest c hc).2.1⟩
  | some e =>
    simp only [exponentText, hexponent] at hc
    cases hc
    exact ⟨rfl, by decide⟩

theorem readFraction_fractionText (hn : n.Proper) (hrest : Stops rest) :
    readFraction (n.fractionText ++ (n.exponentText Layout.json.exponentSign ++ rest)) =
      some (n.fraction, n.exponentText Layout.json.exponentSign ++ rest) := by
  have hends := n.exponentText_ends hrest
  generalize n.exponentText Layout.json.exponentSign ++ rest = cs at hends
  unfold fractionText
  cases hfraction : n.fraction with
  | nil =>
    -- without a point there is nothing to read
    simp only [List.isEmpty_nil, if_true, List.nil_append]
    unfold readFraction
    split
    · exact absurd rfl (hends _ rfl).2
    · rfl
  | cons c digits =>
    have hdigits := hn.fraction
    rw [hfraction] at hdigits
    exact readDigits_append (by simp) hdigits fun c hc => (hends c hc).1

theorem readUnsigned_text (hn : n.Proper) (hrest : Stops rest) :
    readUnsigned n.negative (n.whole ++ (n.fractionText ++ (n.exponentText Layout.json.exponentSign ++ rest))) =
      some (.real n, rest) := by
  have hstops : StopsDigits (n.fractionText ++ (n.exponentText Layout.json.exponentSign ++ rest)) := by
    unfold fractionText
    split
    · exact fun c hc => (n.exponentText_ends hrest c hc).1
    · exact stopsDigits_cons rfl _
  have hreal : (n.fraction.isEmpty && n.exponent.isNone) = false := by
    rcases hn.real with h | h
    · simp [h]
    · simp [Option.isNone_eq_false_iff.mpr h]
  unfold readUnsigned
  rw [readWhole_append hn.whole.ne_nil hn.whole.isDigit hn.whole.zero hstops]
  simp only [Option.bind_eq_bind, Option.bind_some, readFraction_fractionText hn hrest,
    readExponent_exponentText n hrest, hreal, Bool.false_and, Bool.false_eq_true, if_false]
  rfl

end Numeral

namespace Json

theorem numberText_real {n : Numeral} (hn : n.Proper) : NumberText (.real n) (writeReal n) := by
  have hread (rest : List Char) (hrest : Stops rest) :
      readUnsigned n.negative (n.whole ++ (n.fractionText ++ (n.exponentText Layout.json.exponentSign ++ rest))) =
        some (.real n, rest) := n.readUnsigned_text hn hrest
  have htext (rest : List Char) : writeReal n ++ rest =
      n.signText ++ (n.whole ++ (n.fractionText ++ (n.exponentText Layout.json.exponentSign ++ rest))) := by
    simp [writeReal, Numeral.text]
  cases hnegative : n.negative with
  | true =>
    have hsign : n.signText = ['-'] := by rw [Numeral.signText, hnegative, if_pos rfl]
    refine ⟨⟨'-', ?_, List.mem_cons_self⟩, fun rest hrest => ?_⟩
    · rw [← List.append_nil (writeReal n), htext, hsign]
      rfl
    · rw [htext, hsign, ← hread rest hrest, hnegative]
      rfl
  | false =>
    have hsign : n.signText = [] := by rw [Numeral.signText, hnegative, if_neg (by decide)]
    -- a number without a sign starts with a digit
    obtain ⟨c, cs, hwhole⟩ := List.exists_cons_of_ne_nil hn.whole.ne_nil
    have hdigit : isDigit c = true := hn.whole.isDigit c (hwhole ▸ List.mem_cons_self)
    refine ⟨⟨c, ?_, List.mem_cons_of_mem _ (mem_digits hdigit)⟩, fun rest hrest => ?_⟩
    · rw [← List.append_nil (writeReal n), htext, hsign, hwhole]
      rfl
    · rw [htext, hsign, List.nil_append, ← hread rest hrest, hnegative, hwhole]
      unfold readNumber
      split
      · next heq =>
        cases heq
        cases hdigit
      · rfl

/-! ## Doubles -/

/-- The numeral that is written for a double is a number of the grammar, and
    is read as this double again. -/
structure Numbers.Keeps (numbers : Numbers) (x : Double) : Prop where
  proper : (numbers.write x).Proper
  read : numbers.read? (numbers.write x) = some x

end Json

/-! ## Numerals of decimals -/

/-- The number that a numeral writes. -/
def Numeral.decimal (n : Numeral) : Decimal :=
  ⟨Json.digitsValue (n.whole ++ n.fraction), n.exponent.getD 0 - n.fraction.length⟩

/-- The numeral is a number of the grammar and writes the decimal. -/
structure Numeral.Writes (n : Numeral) (d : Decimal) : Prop where
  proper : n.Proper
  decimal : n.decimal.normalize = d

namespace Layout

open Json

variable {d : Decimal} (negative : Bool)

theorem digitText_digits (d : Decimal) : DigitText d.digitText := digitText_toDigits d.digits

theorem digitsValue_digitText (d : Decimal) : digitsValue d.digitText = d.digits := digitsValue_toDigits d.digits

theorem leading_eq (d : Decimal) : d.leading = d.exponent + d.digitText.length - 1 := rfl

/-- A zero in front is the only digit, and then the exponent is zero too. -/
theorem normal_eq_zero (hd : d.Normal) (hhead : d.digitText.head? = some '0') : d = ⟨0, 0⟩ := by
  rcases hd with hzero | hlast
  · exact hzero
  · exact absurd hhead (head?_toDigits (by omega))

/-- A whole number, with a zero behind the point. -/
theorem writes_whole (hd : d.Normal) (hexponent : 0 ≤ d.exponent) :
    Numeral.Writes ⟨negative, d.digitText ++ List.replicate d.exponent.toNat '0', ['0'], none⟩ d := by
  have hdigits := digitText_digits d
  refine ⟨⟨⟨⟨by simp [hdigits.ne_nil], ?_⟩, ?_⟩, by simp [isDigit], .inl (by simp)⟩, ?_⟩
  · intro c hc
    rcases List.mem_append.mp hc with hc | hc
    · exact hdigits.isDigit c hc
    · exact isDigit_of_mem_zeros hc
  · intro hhead
    rw [List.head?_append_of_ne_nil _ hdigits.ne_nil] at hhead
    rw [normal_eq_zero hd hhead]
    rfl
  · -- the zero behind the point is a digit too, and is taken off again
    have hvalue : digitsValue (d.digitText ++ List.replicate d.exponent.toNat '0' ++ ['0']) =
        d.digits * 10 ^ (d.exponent.toNat + 1) := by
      have hlast : digitsValue ['0'] = 0 := rfl
      rw [digitsValue_append, digitsValue_append, digitsValue_zeros, digitsValue_digitText, List.length_replicate, hlast]
      simp [pow_succ, mul_assoc]
    have hplaces : (0 : ℤ) - ['0'].length = d.exponent - (d.exponent.toNat + 1 : ℕ) := by
      simp
      omega
    rw [Numeral.decimal, hvalue, Option.getD_none, hplaces, hd.normalize_mul_pow]

/-- A number below one, with zeros behind the point. -/
theorem writes_fraction (hd : d.Normal) (hleading : d.leading < 0) :
    Numeral.Writes ⟨negative, ['0'], List.replicate (-d.leading - 1).toNat '0' ++ d.digitText, none⟩ d := by
  have hdigits := digitText_digits d
  refine ⟨⟨⟨⟨by simp, by simp [isDigit]⟩, fun _ => rfl⟩, ?_, .inl (by simp [hdigits.ne_nil])⟩, ?_⟩
  · intro c hc
    rcases List.mem_append.mp hc with hc | hc
    · exact isDigit_of_mem_zeros hc
    · exact hdigits.isDigit c hc
  · have hvalue : digitsValue (['0'] ++ (List.replicate (-d.leading - 1).toNat '0' ++ d.digitText)) = d.digits := by
      have hfront : digitsValue ['0'] = 0 := rfl
      rw [digitsValue_append, digitsValue_append, digitsValue_zeros, digitsValue_digitText, hfront]
      simp
    have hplaces : (0 : ℤ) - (List.replicate (-d.leading - 1).toNat '0' ++ d.digitText).length = d.exponent := by
      rw [List.length_append, List.length_replicate]
      rw [leading_eq] at hleading ⊢
      push_cast
      omega
    rw [Numeral.decimal, hvalue, Option.getD_none, hplaces, hd.normalize_eq]

/-- A number with the point among its digits. -/
theorem writes_mixed (hd : d.Normal) (hexponent : d.exponent < 0) {places : ℕ} (hplaces : places = d.leading + 1)
    (hpos : 0 < places) :
    Numeral.Writes ⟨negative, d.digitText.take places, d.digitText.drop places, none⟩ d := by
  have hdigits := digitText_digits d
  rw [leading_eq] at hplaces
  refine ⟨⟨⟨⟨?_, fun c hc => hdigits.isDigit c (List.mem_of_mem_take hc)⟩, ?_⟩,
    fun c hc => hdigits.isDigit c (List.mem_of_mem_drop hc), .inl ?_⟩, ?_⟩
  · rw [ne_eq, List.take_eq_nil_iff]
    simp [hdigits.ne_nil, hpos.ne']
  · -- a leading zero would make the number zero, which has no places
    intro hhead
    rw [List.head?_take, if_neg hpos.ne'] at hhead
    have hzero := congrArg Decimal.exponent (normal_eq_zero hd hhead)
    exact absurd hzero hexponent.ne
  · rw [ne_eq, List.drop_eq_nil_iff]
    omega
  · have hlength : (0 : ℤ) - (d.digitText.drop places).length = d.exponent := by
      rw [List.length_drop]
      omega
    rw [Numeral.decimal, List.take_append_drop, digitsValue_digitText, Option.getD_none, hlength, hd.normalize_eq]

theorem writes_positional (hd : d.Normal) : (Layout.json.positionalNumeral negative d).Writes d := by
  unfold positionalNumeral
  split
  · next hexponent => exact writes_whole negative hd hexponent
  · next hexponent =>
    split
    · next hleading => exact writes_fraction negative hd hleading
    · next hleading => exact writes_mixed negative hd (by omega) (Int.toNat_of_nonneg (by omega)) (by omega)

/-- All digits but the first stand behind the point. -/
theorem writes_scientific (hd : d.Normal) : (scientificNumeral negative d).Writes d := by
  have hdigits := digitText_digits d
  have hlength : 0 < d.digitText.length := List.length_pos_of_ne_nil hdigits.ne_nil
  obtain ⟨c, cs, hlist⟩ := List.exists_cons_of_ne_nil hdigits.ne_nil
  refine ⟨⟨⟨⟨?_, fun c hc => hdigits.isDigit c (List.mem_of_mem_take hc)⟩, ?_⟩,
    fun c hc => hdigits.isDigit c (List.mem_of_mem_drop hc), .inr rfl⟩, ?_⟩
  · simp [scientificNumeral, hlist]
  · simp [scientificNumeral, hlist]
  · have hplaces : d.leading - (d.digitText.drop 1).length = d.exponent := by
      rw [leading_eq, List.length_drop]
      omega
    simp only [scientificNumeral]
    rw [Numeral.decimal, List.take_append_drop, digitsValue_digitText, Option.getD_some, hplaces, hd.normalize_eq]

theorem writes_json (hd : d.Normal) : (Layout.json.numeral negative d).Writes d := by
  unfold numeral
  split
  · exact writes_positional negative hd
  · exact writes_scientific negative hd

theorem negative_numeral (layout : Layout) (d : Decimal) : (layout.numeral negative d).negative = negative := by
  unfold numeral positionalNumeral
  split
  · dsimp only
    split
    · rfl
    · split <;> rfl
  · rfl

end Layout

/-! ## Reading the nearest double -/

namespace Json.Numbers

variable {x : Double}

theorem exists_shortest (h : x.isFinite = true) : ∃ mantissa scale, x.magnitude = .finite mantissa scale ∧
    shortest x = Layout.json.numeral x.isNegative (Double.shortest Layout.json.tie mantissa scale) := by
  obtain ⟨mantissa, scale, hmagnitude⟩ : ∃ mantissa scale, x.magnitude = .finite mantissa scale := by
    simp only [Double.isFinite, bne_iff_ne] at h
    unfold Double.magnitude
    rw [if_neg h]
    split
    · exact ⟨_, _, rfl⟩
    · exact ⟨_, _, rfl⟩
  refine ⟨mantissa, scale, hmagnitude, ?_⟩
  simp only [shortest, hmagnitude]

theorem proper_shortest (h : x.isFinite = true) : (shortest x).Proper := by
  obtain ⟨mantissa, scale, -, hshortest⟩ := exists_shortest h
  rw [hshortest]
  exact (Layout.writes_json _ (Double.normal_shortest _ _ _)).proper

/-- Numerals are read as the nearest double, which has to be finite. -/
def exact : Numbers where
  read? n :=
    let x := Double.ofDecimal n.negative n.decimal.normalize
    if x.isFinite then some x else none
  write := shortest

theorem keeps_exact (h : x.isFinite = true) : exact.Keeps x := by
  refine ⟨proper_shortest h, ?_⟩
  obtain ⟨mantissa, scale, hmagnitude, hshortest⟩ := exists_shortest h
  have hwrites := Layout.writes_json x.isNegative (Double.normal_shortest Layout.json.tie mantissa scale)
  have hread : Double.ofDecimal (shortest x).negative (shortest x).decimal.normalize = x := by
    rw [hshortest, hwrites.decimal, Layout.negative_numeral]
    exact Double.ofDecimal_shortest Layout.json.tie hmagnitude
  simp only [exact, hread, h, if_true]

/-- Whether the usual reader finds the double again can be computed. -/
theorem keeps_standard (h : x.isFinite = true) (hread : standard.read? (shortest x) = some x) : standard.Keeps x :=
  ⟨proper_shortest h, hread⟩

/-- `100.78399658203125` is read as the double below it. -/
theorem not_keeps_standard : ¬standard.Keeps ⟨0x4059322d00000000⟩ := by
  have hread : standard.read? (standard.write ⟨0x4059322d00000000⟩) = some ⟨0x4059322cffffffff⟩ := by decide +kernel
  intro h
  rw [h.read] at hread
  revert hread
  decide

end Json.Numbers

end FlowGraph
