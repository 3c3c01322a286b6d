import LoxLang.Decimal.Layout
import LoxLang.Proofs.Decimal.ReadingBack
import LoxLang.Proofs.Token.Pieces

/-!
# Reading the texts of decimals

`readText` gives the number that a text denotes, in positional or in scientific layout alike. Both
layouts of a decimal denote its number (`readText_positional`, `readText_scientific`), so a text
tells the double that is written, whichever layout is chosen for it (`writeFinite_injective`).
-/

namespace LoxLang

namespace Decimal

open Lexical (ne_of_class takeWhile_ne_append dropWhile_ne_append takeWhile_ne_of_not_mem
  dropWhile_ne_of_not_mem)

/-! ### Reading -/

/-- The number that digits with at most one point among them denote. -/
def readPoint (text : List Char) : ℚ :=
  let fraction := (text.dropWhile (· != '.')).tail
  Nat.ofDigitChars 10 (text.takeWhile (· != '.') ++ fraction) 0 / 10 ^ fraction.length

/-- The whole number that a sign and digits denote. -/
def readPower : List Char → ℤ
  | '-' :: digits => -Nat.ofDigitChars 10 digits 0
  | _ :: digits => Nat.ofDigitChars 10 digits 0
  | [] => 0

/-- The number that a text denotes: digits with a point, and a power of ten where an `e` stands. -/
def readText (text : List Char) : ℚ :=
  readPoint (text.takeWhile (· != 'e')) * 10 ^ readPower (text.dropWhile (· != 'e')).tail

variable {whole fraction digits : List Char}

theorem not_mem_of_digits {c : Char} (hdigits : ∀ d ∈ digits, d.isDigit = true)
    (hc : c.isDigit = false) : c ∉ digits :=
  fun hmem => ne_of_class (hdigits c hmem) hc rfl

theorem readPoint_digits (hdigits : ∀ d ∈ digits, d.isDigit = true) :
    readPoint digits = Nat.ofDigitChars 10 digits 0 := by
  have hpoint : '.' ∉ digits := not_mem_of_digits hdigits (by decide)
  simp [readPoint, takeWhile_ne_of_not_mem hpoint, dropWhile_ne_of_not_mem hpoint]

theorem readPoint_fraction (hwhole : ∀ d ∈ whole, d.isDigit = true) :
    readPoint (whole ++ '.' :: fraction) =
      Nat.ofDigitChars 10 (whole ++ fraction) 0 / 10 ^ fraction.length := by
  have hpoint : '.' ∉ whole := not_mem_of_digits hwhole (by decide)
  rw [readPoint, takeWhile_ne_append hpoint, dropWhile_ne_append hpoint, List.tail_cons]

/-- Zeros in front of digits do not count. -/
theorem ofDigitChars_fill (n : Nat) (digits : List Char) :
    Nat.ofDigitChars 10 (List.replicate n '0' ++ digits) 0 = Nat.ofDigitChars 10 digits 0 := by
  rw [Nat.ofDigitChars_append, Nat.ofDigitChars_replicate_zero, Nat.mul_zero]

theorem isDigit_fill {n : Nat} (hdigits : ∀ d ∈ digits, d.isDigit = true) :
    ∀ d ∈ List.replicate n '0' ++ digits, d.isDigit = true := by
  refine List.forall_mem_append.mpr ⟨fun d hd => ?_, hdigits⟩
  rw [List.eq_of_mem_replicate hd]
  rfl

/-! ### Digits -/

variable (d : Decimal)

theorem isDigit_of_mem_digitChars : ∀ c ∈ d.digitChars, c.isDigit = true :=
  fun _ hc => Nat.isDigit_of_mem_toDigits (by decide) (by decide) hc

theorem digitChars_ne_nil : d.digitChars ≠ [] := Nat.toDigits_ne_nil

theorem ofDigitChars_digitChars : Nat.ofDigitChars 10 d.digitChars 0 = d.digits :=
  Nat.ofDigitChars_ten_toDigits

/-! ### The positional layout -/

/-- The positional layout is digits alone, or digits around a point. -/
theorem positional_cases :
    (∃ zeros : Nat, d.exponent = zeros ∧ d.positional = d.digitChars ++ List.replicate zeros '0') ∨
    ∃ whole fraction, whole ≠ [] ∧ d.exponent = -(fraction.length : ℤ) ∧
      (∃ zeros, whole ++ fraction = List.replicate zeros '0' ++ d.digitChars) ∧
      d.positional = whole ++ '.' :: fraction := by
  unfold positional
  split
  · next h => exact .inl ⟨d.exponent.toNat, by omega, rfl⟩
  · next h =>
    dsimp only
    generalize hplaces : (-d.exponent).toNat = places
    generalize hfilled :
      List.replicate (places + 1 - d.digitChars.length) '0' ++ d.digitChars = filled
    have hlength : places + 1 ≤ filled.length := by
      rw [← hfilled, List.length_append, List.length_replicate]
      omega
    refine .inr ⟨filled.take (filled.length - places), filled.drop (filled.length - places), ?_, ?_,
      ⟨places + 1 - d.digitChars.length, ?_⟩, rfl⟩
    · rw [← List.length_pos_iff, List.length_take]
      omega
    · rw [List.length_drop]
      omega
    · rw [List.take_append_drop, hfilled]

/-- The positional layout begins with a digit and holds nothing but digits and perhaps a point. -/
theorem positional_form : ∃ c cs, d.positional = c :: cs ∧ c.isDigit = true ∧
    ∀ e ∈ cs, e.isDigit = true ∨ e = '.' := by
  have hdigits := d.isDigit_of_mem_digitChars
  rcases d.positional_cases with ⟨zeros, -, htext⟩ |
    ⟨whole, fraction, hne, -, ⟨zeros, hfilled⟩, htext⟩
  · have hall : ∀ e ∈ d.positional, e.isDigit = true := by
      rw [htext]
      refine List.forall_mem_append.mpr ⟨hdigits, fun e he => ?_⟩
      rw [List.eq_of_mem_replicate he]
      rfl
    obtain ⟨c, cs, hcons⟩ := List.exists_cons_of_ne_nil d.digitChars_ne_nil
    rw [hcons, List.cons_append] at htext
    rw [htext] at hall ⊢
    obtain ⟨hc, hcs⟩ := List.forall_mem_cons.mp hall
    exact ⟨c, _, rfl, hc, fun e he => .inl (hcs e he)⟩
  · have hall : ∀ e ∈ whole ++ fraction, e.isDigit = true := hfilled ▸ isDigit_fill hdigits
    obtain ⟨c, cs, rfl⟩ := List.exists_cons_of_ne_nil hne
    obtain ⟨hwhole, hfraction⟩ := List.forall_mem_append.mp hall
    obtain ⟨hc, hcs⟩ := List.forall_mem_cons.mp hwhole
    refine ⟨c, _, htext, hc, fun e he => ?_⟩
    rcases List.mem_append.mp he with he | he
    · exact .inl (hcs e he)
    · exact (List.mem_cons.mp he).symm.imp_left (hfraction e)

/-- The positional layout denotes the number. -/
theorem readPoint_positional : readPoint d.positional = d.value := by
  have hdigits := d.isDigit_of_mem_digitChars
  rcases d.positional_cases with ⟨zeros, hplace, htext⟩ |
    ⟨whole, fraction, -, hplace, ⟨zeros, hfilled⟩, htext⟩
  · have hall : ∀ e ∈ d.digitChars ++ List.replicate zeros '0', e.isDigit = true := by
      refine List.forall_mem_append.mpr ⟨hdigits, fun e he => ?_⟩
      rw [List.eq_of_mem_replicate he]
      rfl
    rw [htext, readPoint_digits hall, Nat.ofDigitChars_append, ofDigitChars_digitChars,
      Nat.ofDigitChars_replicate_zero, value, hplace, zpow_natCast]
    push_cast
    ring
  · have hall : ∀ e ∈ whole ++ fraction, e.isDigit = true := hfilled ▸ isDigit_fill hdigits
    rw [htext, readPoint_fraction (List.forall_mem_append.mp hall).1, hfilled, ofDigitChars_fill,
      ofDigitChars_digitChars, value, hplace, zpow_neg, zpow_natCast, div_eq_mul_inv]

theorem readText_positional : readText d.positional = d.value := by
  obtain ⟨c, cs, htext, hc, hcs⟩ := d.positional_form
  have hmark : 'e' ∉ d.positional := by
    rw [htext, List.mem_cons, not_or]
    refine ⟨(ne_of_class hc (by decide)).symm, fun hmem => ?_⟩
    rcases hcs 'e' hmem with hdigit | hpoint
    · exact absurd hdigit (by decide)
    · exact absurd hpoint (by decide)
  rw [readText, takeWhile_ne_of_not_mem hmark, dropWhile_ne_of_not_mem hmark, List.tail_nil,
    readPower, zpow_zero, mul_one, readPoint_positional]

/-! ### The scientific layout -/

/-- The mantissa has one digit before the point. -/
theorem readPoint_mantissa {c : Char} {cs : List Char} (hdigits : ∀ e ∈ c :: cs, e.isDigit = true) :
    readPoint (mantissa (c :: cs)) = Nat.ofDigitChars 10 (c :: cs) 0 / 10 ^ cs.length := by
  cases cs with
  | nil => rw [mantissa, readPoint_digits hdigits, List.length_nil, pow_zero, div_one]
  | cons b cs =>
    have hfirst : ∀ e ∈ [c], e.isDigit = true := by simpa using hdigits c List.mem_cons_self
    exact readPoint_fraction hfirst

theorem readPower_power (place : ℤ) : readPower (power place) = place := by
  unfold power
  dsimp only
  split
  · rw [readPower, ofDigitChars_fill, Nat.ofDigitChars_ten_toDigits]
    omega
  · rw [readPower, ofDigitChars_fill, Nat.ofDigitChars_ten_toDigits]
    · omega
    · decide

theorem mantissa_cons (c : Char) (cs : List Char) :
    ∃ rest, mantissa (c :: cs) = c :: rest ∧ ∀ e ∈ rest, e ∈ cs ∨ e = '.' := by
  cases cs with
  | nil => exact ⟨[], rfl, by simp⟩
  | cons b cs => exact ⟨'.' :: b :: cs, rfl, fun e he => (List.mem_cons.mp he).symm⟩

/-- The scientific layout begins with a digit, and its mantissa holds no mark for the power. -/
theorem mantissa_form : ∃ c cs, mantissa d.digitChars = c :: cs ∧ c.isDigit = true ∧
    'e' ∉ mantissa d.digitChars := by
  have hdigits := d.isDigit_of_mem_digitChars
  obtain ⟨c, cs, hcons⟩ := List.exists_cons_of_ne_nil d.digitChars_ne_nil
  rw [hcons] at hdigits ⊢
  obtain ⟨hc, hcs⟩ := List.forall_mem_cons.mp hdigits
  obtain ⟨rest, htext, hrest⟩ := mantissa_cons c cs
  refine ⟨c, rest, htext, hc, ?_⟩
  rw [htext, List.mem_cons, not_or]
  refine ⟨(ne_of_class hc (by decide)).symm, fun hmem => ?_⟩
  rcases hrest 'e' hmem with hdigit | hpoint
  · exact absurd (hcs 'e' hdigit) (by decide)
  · exact absurd hpoint (by decide)

theorem readText_scientific : readText d.scientific = d.value := by
  obtain ⟨-, -, -, -, hmark⟩ := d.mantissa_form
  have hdigits := d.isDigit_of_mem_digitChars
  have hvalue := d.ofDigitChars_digitChars
  obtain ⟨c, cs, hcons⟩ := List.exists_cons_of_ne_nil d.digitChars_ne_nil
  rw [readText, scientific, takeWhile_ne_append hmark, dropWhile_ne_append hmark, List.tail_cons,
    readPower_power, leadingPlace]
  rw [hcons] at hdigits hvalue ⊢
  rw [readPoint_mantissa hdigits, hvalue, List.length_cons, Nat.add_sub_cancel, value,
    zpow_add₀ (by norm_num), zpow_natCast]
  field_simp

end Decimal

namespace NumberFormat

open Decimal

variable (format : NumberFormat) (k : Nat)

/-- Both layouts begin with a digit. -/
theorem writeFinite_head : ∃ c cs, format.writeFinite k = c :: cs ∧ c.isDigit = true := by
  unfold writeFinite
  dsimp only
  split
  · obtain ⟨c, cs, htext, hc, -⟩ := (shortest k).positional_form
    exact ⟨c, cs, htext, hc⟩
  · obtain ⟨c, cs, htext, hc, -⟩ := (shortest k).mantissa_form
    exact ⟨c, _, by rw [scientific, htext, List.cons_append], hc⟩

/-- Both layouts denote the same number, and the shortest decimal is written in one of them. -/
theorem readText_writeFinite : readText (format.writeFinite k) = (shortest k).value := by
  unfold writeFinite
  dsimp only
  split
  · exact readText_positional _
  · exact readText_scientific _

/-- **Different doubles have different texts.** -/
theorem writeFinite_injective : Function.Injective format.writeFinite := by
  intro k l h
  have hvalue := congrArg readText h
  rw [readText_writeFinite, readText_writeFinite] at hvalue
  exact value_shortest_injective hvalue

end NumberFormat

end LoxLang
