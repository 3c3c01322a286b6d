import LoxLang.Proofs.Decimal.Texts
import LoxLang.Value.Basic

/-!
# The texts of values

What a program prints tells the value that is printed (`Value.display_injective`). The numbers are
told apart by their magnitudes, which both layouts keep, and by their signs, zero included. Words
such as `inf` stand apart from the numbers with digits because of how they begin
(`NumberFormat.Clear`), and so do quoted strings. All the bit patterns that denote no number are one
`Float`, so for all others equality is that of every bit.
-/

namespace LoxLang

namespace Decimal

open Float.Model (UnpackedFloat)

variable {x y : Float}

/-- A double is known by its sign and its rank. -/
theorem eq_of_rank (hrank : rank x = rank y) (hsign : isNegative x = isNegative y) : x = y := by
  have hx : x.toBits.toNat < 2 ^ 64 := x.toBits.toNat_lt
  have hy : y.toBits.toNat < 2 ^ 64 := y.toBits.toNat_lt
  have hspan : Nat.pow 2 63 = 9223372036854775808 := rfl
  simp only [rank, isNegative, hspan, beq_eq_beq] at hrank hsign
  rw [← Float.toBits_inj, ← UInt64.toNat_inj]
  omega

/-- From infinity on, all bits of the exponent are set. -/
theorem unpackExponent_of_infiniteRank_le (h : infiniteRank ≤ rank x) :
    @UnpackedFloat.unpackExponent .binary64 x.toModel.toBits.toBitVec = -1#_ := by
  have hspan : Nat.pow 2 63 = 9223372036854775808 := rfl
  have hinfinite : infiniteRank = 9218868437227405312 := rfl
  rw [rank, hspan, hinfinite] at h
  apply BitVec.eq_of_toNat_eq
  show x.toBits.toNat >>> 52 % 2 ^ 11 = 2047
  omega

/-- There is one double that is no number. -/
theorem eq_of_infiniteRank_lt (hx : infiniteRank < rank x) (hy : infiniteRank < rank y) :
    x = y := by
  have hnan (z : Float) (hz : infiniteRank < rank z) :
      z.toBits.toBitVec = UnpackedFloat.packedNaN .binary64 := by
    refine z.toModel.valid.eq_packedNaN (unpackExponent_of_infiniteRank_le hz.le) fun hzero => ?_
    have hspan : Nat.pow 2 63 = 9223372036854775808 := rfl
    have hinfinite : infiniteRank = 9218868437227405312 := rfl
    have hmantissa : z.toBits.toNat >>> 0 % 2 ^ 52 = 0 := congrArg BitVec.toNat hzero
    rw [rank, hspan, hinfinite] at hz
    omega
  rw [← Float.toBits_inj, ← UInt64.toBitVec_inj, hnan x hx, hnan y hy]

theorem rank_lt_of_isFinite (hx : x.isFinite = true) : rank x < infiniteRank := by
  by_contra hrank
  have hexponent := unpackExponent_of_infiniteRank_le (not_lt.mp hrank)
  rw [Float.isFinite, Float.Model.isFinite, Float.Model.unpack, UnpackedFloat.unpack,
    if_pos hexponent] at hx
  split at hx <;> cases hx

end Decimal

namespace NumberFormat

open Decimal

variable {format : NumberFormat}

/-- The words of a format can be told from its numbers, signs included, and from each other. -/
structure Clear (format : NumberFormat) : Prop where
  nan_head : ∀ c ∈ format.nan.toList.head?, c.isDigit = false ∧ c ≠ '-'
  infinity_head : ∀ c ∈ format.infinity.toList.head?, c.isDigit = false ∧ c ≠ '-'
  nan_ne_infinity : format.nan.toList ≠ format.infinity.toList

/-- A magnitude begins with a digit, or it is the word for infinity. -/
theorem writeMagnitude_cases (format : NumberFormat) (k : Nat) :
    (k = infiniteRank ∧ format.writeMagnitude k = format.infinity.toList) ∨
      (k ≠ infiniteRank ∧ format.writeMagnitude k = format.writeFinite k ∧
        ∃ c, (format.writeMagnitude k).head? = some c ∧ c.isDigit = true) := by
  unfold writeMagnitude
  split
  · next h => exact .inl ⟨h, rfl⟩
  · next h =>
    obtain ⟨c, cs, htext, hc⟩ := format.writeFinite_head k
    exact .inr ⟨h, rfl, c, by rw [htext]; rfl, hc⟩

/-- No magnitude has a sign. -/
theorem Clear.head_writeMagnitude (h : format.Clear) {k : Nat} :
    (format.writeMagnitude k).head? ≠ some '-' := by
  intro hhead
  rcases format.writeMagnitude_cases k with ⟨-, htext⟩ | ⟨-, -, c, hc, hdigit⟩
  · rw [htext] at hhead
    exact (h.infinity_head '-' hhead).2 rfl
  · rw [hhead, Option.some.injEq] at hc
    subst hc
    exact absurd hdigit (by decide)

theorem Clear.writeMagnitude_ne_nan (h : format.Clear) (k : Nat) :
    format.writeMagnitude k ≠ format.nan.toList := by
  intro hnan
  rcases format.writeMagnitude_cases k with ⟨-, htext⟩ | ⟨-, -, c, hc, hdigit⟩
  · exact h.nan_ne_infinity (hnan.symm.trans htext)
  · rw [hnan] at hc
    exact absurd hdigit (by simp [(h.nan_head c hc).1])

theorem Clear.writeMagnitude_injective (h : format.Clear) :
    Function.Injective format.writeMagnitude := by
  intro k l hkl
  rcases format.writeMagnitude_cases k with ⟨hk, htext⟩ | ⟨hk, htext, c, hc, hdigit⟩ <;>
    rcases format.writeMagnitude_cases l with ⟨hl, htext'⟩ | ⟨hl, htext', c', hc', hdigit'⟩
  · rw [hk, hl]
  · rw [← hkl, htext] at hc'
    exact absurd hdigit' (by simp [(h.infinity_head c' hc').1])
  · rw [hkl, htext'] at hc
    exact absurd hdigit (by simp [(h.infinity_head c hc).1])
  · rw [htext, htext'] at hkl
    exact format.writeFinite_injective hkl

/-- The text of a double as characters. -/
theorem toList_write (format : NumberFormat) (x : Float) :
    (format.write x).toList = if infiniteRank < rank x then format.nan.toList
      else if isNegative x then '-' :: format.writeMagnitude (rank x)
      else format.writeMagnitude (rank x) := by
  unfold write
  dsimp only
  split
  · rfl
  · split <;> exact String.toList_ofList

/-- A double is a number exactly if its text is not the word for the others. -/
theorem Clear.toList_write_eq_nan_iff (h : format.Clear) {x : Float} :
    (format.write x).toList = format.nan.toList ↔ infiniteRank < rank x := by
  rw [toList_write]
  split
  · next hx => exact iff_of_true rfl hx
  · next hx =>
    refine iff_of_false (fun htext => ?_) hx
    split at htext
    · exact (h.nan_head '-' (by rw [← htext]; rfl)).2 rfl
    · exact h.writeMagnitude_ne_nan _ htext

/-- **Different doubles have different texts**, zeros with different signs as well. -/
theorem Clear.write_injective (h : format.Clear) : Function.Injective format.write := by
  intro x y hxy
  have htexts := congrArg String.toList hxy
  by_cases hx : infiniteRank < rank x
  · rw [h.toList_write_eq_nan_iff.mpr hx] at htexts
    exact eq_of_infiniteRank_lt hx (h.toList_write_eq_nan_iff.mp htexts.symm)
  · have hy : ¬ infiniteRank < rank y := by
      rwa [← h.toList_write_eq_nan_iff, htexts, h.toList_write_eq_nan_iff] at hx
    rw [toList_write, toList_write, if_neg hx, if_neg hy] at htexts
    have hunsigned (k : Nat) (cs : List Char) : format.writeMagnitude k ≠ '-' :: cs :=
      fun hcs => h.head_writeMagnitude (congrArg List.head? hcs)
    cases hsign : isNegative x <;> cases hsign' : isNegative y <;>
      simp only [hsign, hsign', Bool.false_eq_true, ↓reduceIte] at htexts
    · exact eq_of_rank (h.writeMagnitude_injective htexts) (hsign.trans hsign'.symm)
    · exact absurd htexts (hunsigned _ _)
    · exact absurd htexts.symm (hunsigned _ _)
    · exact eq_of_rank (h.writeMagnitude_injective (List.cons.inj htexts).2)
        (hsign.trans hsign'.symm)

/-- No double is written like another word. -/
theorem toList_write_ne (format : NumberFormat) (x : Float) {word : List Char}
    (hhead : ∀ c ∈ word.head?, c.isDigit = false ∧ c ≠ '-') (hnan : word ≠ format.nan.toList)
    (hinfinity : word ≠ format.infinity.toList) : (format.write x).toList ≠ word := by
  rintro rfl
  rw [toList_write] at hhead hnan hinfinity
  split at hhead
  · next hx =>
    rw [if_pos hx] at hnan
    exact hnan rfl
  · next hx =>
    rw [if_neg hx] at hinfinity
    split at hhead
    · exact (hhead '-' rfl).2 rfl
    · next hsign =>
      rw [if_neg hsign] at hinfinity
      rcases format.writeMagnitude_cases (rank x) with ⟨-, htext⟩ | ⟨-, -, c, hc, hdigit⟩
      · exact hinfinity htext
      · exact absurd hdigit (by simp [(hhead c hc).1])

end NumberFormat

namespace Value

theorem clear_displayNumber : displayNumber.Clear where
  nan_head := by simp [displayNumber]
  infinity_head := by simp [displayNumber]
  nan_ne_infinity := by simp [displayNumber]

theorem clear_literalNumber : literalNumber.Clear where
  nan_head := by simp [literalNumber]
  infinity_head := by simp [literalNumber]
  nan_ne_infinity := by simp [literalNumber]

theorem toList_display_string (s : String) :
    (display (.string s)).toList = '\'' :: (s.toList ++ ['\'']) := by
  simp [display]

/-- No other value is displayed like a number. -/
theorem display_number_ne (x : Float) {value : Value} (h : ∀ y, value ≠ .number y) :
    display (.number x) ≠ display value := by
  intro hsame
  have htexts : (displayNumber.write x).toList = value.display.toList :=
    congrArg String.toList hsame
  cases value with
  | number y => exact h y rfl
  | string s =>
    rw [toList_display_string] at htexts
    exact displayNumber.toList_write_ne x (by simp) (by simp [displayNumber])
      (by simp [displayNumber]) htexts
  | boolean b =>
    cases b <;>
      exact displayNumber.toList_write_ne x (by simp [display, booleanText])
        (by simp [displayNumber, display, booleanText])
        (by simp [displayNumber, display, booleanText]) htexts
  | nil =>
    exact displayNumber.toList_write_ne x (by simp [display]) (by simp [displayNumber, display])
      (by simp [displayNumber, display]) htexts

/-- No other value is displayed like a string. -/
theorem display_string_ne (s : String) {value : Value} (h : ∀ t, value ≠ .string t) :
    display (.string s) ≠ display value := by
  intro hsame
  cases value with
  | number x => exact display_number_ne x (by simp) hsame.symm
  | string t => exact h t rfl
  | boolean b =>
    have htexts := congrArg String.toList hsame
    rw [toList_display_string] at htexts
    cases b <;> simp [display, booleanText] at htexts
  | nil =>
    have htexts := congrArg String.toList hsame
    rw [toList_display_string] at htexts
    simp [display] at htexts

/-- **The text of a value tells the value**: its kind, and of a number every bit
(`Float.toBits_inj`), unless it is no number. -/
theorem display_injective : Function.Injective display := by
  intro a b h
  cases a with
  | number x =>
    cases b with
    | number y => rw [clear_displayNumber.write_injective h]
    | string | boolean | nil => exact absurd h (display_number_ne x (by simp))
  | string s =>
    cases b with
    | string t =>
      have htexts := congrArg String.toList h
      rw [toList_display_string, toList_display_string, List.cons.injEq] at htexts
      rw [String.toList_inj.mp (List.append_cancel_right htexts.2)]
    | number | boolean | nil => exact absurd h (display_string_ne s (by simp))
  | boolean p =>
    cases b with
    | number y => exact absurd h.symm (display_number_ne y (by simp))
    | string t => exact absurd h.symm (display_string_ne t (by simp))
    | boolean q => cases p <;> cases q <;> simp [display, booleanText] at h ⊢
    | nil => cases p <;> simp [display, booleanText] at h
  | nil =>
    cases b with
    | number y => exact absurd h.symm (display_number_ne y (by simp))
    | string t => exact absurd h.symm (display_string_ne t (by simp))
    | boolean q => cases q <;> simp [display, booleanText] at h
    | nil => rfl

theorem display_injective_third :
    display (.number (0.1 + 0.2)) = display (.number 0.30000000000000004) ∧
      Value.number (0.1 + 0.2) = .number 0.30000000000000004 :=
  have h : display (.number (0.1 + 0.2)) = display (.number 0.30000000000000004) := by
    decide +kernel
  ⟨h, display_injective h⟩

end Value

end LoxLang
