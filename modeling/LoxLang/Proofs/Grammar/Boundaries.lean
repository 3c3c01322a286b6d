import LoxLang.Proofs.Grammar.Orderly
import Mathlib.Order.Bounds.Defs

/-!
# Where recovery stops

Behind an error a statement may begin at a *boundary*: behind a semicolon, in front of a keyword
that starts a statement, or at the end. `recover` carries only the kind of the last token that it
passed, and yet what it finds is the first boundary behind the token in front, whatever that token
is (`recover_first_boundary`). So it passes no end, and of the keywords that start a statement at
most the one in front.
-/

namespace LoxLang.Grammar

/-- The keywords that start a statement. -/
def statementKeywords : List TokenKind :=
  [.kwFun, .kwVar, .kwFor, .kwIf, .kwWhile, .kwPrint, .kwReturn]

theorem startsStatement_iff_mem {kind : TokenKind} :
    startsStatement kind = true ↔ kind ∈ statementKeywords := by
  cases kind <;> decide

/-- The place behind the first `k` tokens, of which there is at least one, is one where a statement
may begin: the last of them is a semicolon, or what follows is a keyword that starts a statement, an
end token or nothing. -/
structure Boundary (tokens : List Token) (k : Nat) : Prop where
  pos : 1 ≤ k
  le_length : k ≤ tokens.length
  stops : peek (tokens.drop (k - 1)) = .semicolon ∨ peek (tokens.drop k) ∈ statementKeywords ∨
    peek (tokens.drop k) = .eof

variable {token : Token} {tokens rest : List Token} {k : Nat}

/-! ### Boundaries along the tokens -/

theorem boundary_one_iff : Boundary (token :: rest) 1 ↔
    token.kind = .semicolon ∨ peek rest ∈ statementKeywords ∨ peek rest = .eof :=
  ⟨fun h => h.stops, fun h => ⟨Nat.le_refl 1, Nat.succ_pos _, h⟩⟩

/-- A token in front moves the boundaries of the others by one place. -/
theorem boundary_succ_iff (hpos : 1 ≤ k) : Boundary (token :: rest) (k + 1) ↔ Boundary rest k := by
  obtain ⟨i, rfl⟩ := Nat.exists_eq_add_of_le' hpos
  exact ⟨fun h => ⟨hpos, Nat.le_of_succ_le_succ h.le_length, h.stops⟩,
    fun h => ⟨Nat.succ_pos _, Nat.succ_le_succ h.le_length, h.stops⟩⟩

theorem isLeast_boundary_one (h : Boundary (token :: rest) 1) :
    IsLeast {k | Boundary (token :: rest) k} 1 :=
  ⟨h, fun _ hk => hk.pos⟩

theorem isLeast_boundary_succ (hone : ¬ Boundary (token :: rest) 1)
    (h : IsLeast {k | Boundary rest k} k) : IsLeast {k | Boundary (token :: rest) k} (k + 1) := by
  obtain ⟨hk, hleast⟩ := h
  refine ⟨(boundary_succ_iff hk.pos).mpr hk, fun other hother => ?_⟩
  obtain ⟨i, rfl⟩ := Nat.exists_eq_add_of_le' hother.pos
  cases i with
  | zero => exact absurd hother hone
  | succ i =>
    have hi : Boundary rest (i + 1) := (boundary_succ_iff (Nat.succ_pos i)).mp hother
    exact Nat.succ_le_succ (hleast hi)

/-- Before the first boundary there is no end, and behind the token in front no keyword that starts
a statement. -/
theorem not_stops_of_lt_isLeast (h : IsLeast {k | Boundary tokens k} k) {i : Nat} (hpos : 1 ≤ i)
    (hlt : i < k) : peek (tokens.drop i) ≠ .eof ∧ peek (tokens.drop i) ∉ statementKeywords := by
  have hnone : ¬ Boundary tokens i := fun hi => Nat.not_le_of_lt hlt (h.2 hi)
  have hle : i ≤ tokens.length := Nat.le_trans (Nat.le_of_lt hlt) h.1.le_length
  exact ⟨fun heof => hnone ⟨hpos, hle, .inr (.inr heof)⟩,
    fun hkeyword => hnone ⟨hpos, hle, .inr (.inl hkeyword)⟩⟩

/-! ### The walk to the first boundary -/

/-- One step of recovery: it stays where it is if that is a boundary, with the token just passed in
front, and passes one more token if not. -/
theorem seekStatement_cons (passed token : Token) (rest : List Token) :
    (Boundary (passed :: token :: rest) 1 ∧
      seekStatement passed.kind (token :: rest) = token :: rest) ∨
    (¬ Boundary (passed :: token :: rest) 1 ∧
      seekStatement passed.kind (token :: rest) = seekStatement token.kind rest) := by
  have hstop : (token.kind = .eof ∨ passed.kind = .semicolon ∨ startsStatement token.kind = true) ↔
      Boundary (passed :: token :: rest) 1 := by
    rw [boundary_one_iff, startsStatement_iff_mem, peek, or_comm, or_assoc]
  rw [← hstop, seekStatement]
  split
  · next h => exact .inl ⟨h, rfl⟩
  · next h => exact .inr ⟨h, rfl⟩

/-- **The walk ends at the first boundary** behind the token just passed. -/
theorem exists_isLeast_boundary_seekStatement (passed : Token) (tokens : List Token) :
    ∃ k, IsLeast {k | Boundary (passed :: tokens) k} k ∧
      seekStatement passed.kind tokens = (passed :: tokens).drop k := by
  -- A boundary also looks back by one token, so each step hands on the token that it passes.
  induction tokens generalizing passed with
  | nil => exact ⟨1, isLeast_boundary_one (boundary_one_iff.mpr (.inr (.inr rfl))), rfl⟩
  | cons token rest ih =>
    rcases seekStatement_cons passed token rest with ⟨hone, hstays⟩ | ⟨hone, hgoes⟩
    · exact ⟨1, isLeast_boundary_one hone, hstays⟩
    · obtain ⟨k, hleast, hseek⟩ := ih token
      exact ⟨k + 1, isLeast_boundary_succ hone hleast, hgoes.trans hseek⟩

/-! ### The whole -/

/-- **Recovery goes on at the first boundary behind the token in front.** At the end it stays where
it is. Before the end it passes at least one token, none of those that it passes is an end, and none
but the first is a keyword that starts a statement. -/
theorem recover_first_boundary (tokens : List Token) :
    (peek tokens = .eof → recover tokens = tokens) ∧
    (peek tokens ≠ .eof → ∃ k, IsLeast {k | Boundary tokens k} k ∧
      recover tokens = tokens.drop k ∧ (recover tokens).length < tokens.length ∧
      (∀ i < k, peek (tokens.drop i) ≠ .eof) ∧
      ∀ i < k, 1 ≤ i → peek (tokens.drop i) ∉ statementKeywords) := by
  refine ⟨fun hend => recover_of_atEnd (by simp [atEnd, hend]), fun hne => ?_⟩
  obtain _ | ⟨token, rest⟩ := tokens
  · exact absurd rfl hne
  obtain ⟨k, hleast, hseek⟩ := exists_isLeast_boundary_seekStatement token rest
  have hrecover : recover (token :: rest) = (token :: rest).drop k := by
    have hkind : token.kind ≠ .eof := hne
    rw [recover, if_neg hkind, hseek]
  refine ⟨k, hleast, hrecover, ?_, fun i hlt => ?_, fun i hlt hpos =>
    (not_stops_of_lt_isLeast hleast hpos hlt).2⟩
  · have hpos := hleast.1.pos
    have hle := hleast.1.le_length
    rw [hrecover, List.length_drop]
    omega
  · cases i with
    | zero => exact hne
    | succ i => exact (not_stops_of_lt_isLeast hleast (Nat.succ_pos i) hlt).1

/-- A conditional that breaks at its first token, a semicolon right before the end, and a keyword
behind the end. -/
def strayConditional : List Token :=
  [⟨.kwIf, "if", none, 1⟩, ⟨.rightBrace, "\x7d", none, 1⟩, ⟨.semicolon, ";", none, 1⟩,
    ⟨.eof, "", none, 1⟩, ⟨.kwPrint, "print", none, 1⟩]

/-- From the `if` recovery passes the brace and the semicolon, and stays in front of the end. -/
theorem recover_first_boundary_strayConditional :
    peek strayConditional ≠ .eof ∧ IsLeast {k | Boundary strayConditional k} 3 ∧
    recover strayConditional = strayConditional.drop 3 ∧
    (∀ i < 3, peek (strayConditional.drop i) ≠ .eof) ∧
    ∀ i < 3, 1 ≤ i → peek (strayConditional.drop i) ∉ statementKeywords := by
  have hne : peek strayConditional ≠ .eof := by decide
  obtain ⟨k, hleast, hrecover, -, hends, hkeywords⟩ := (recover_first_boundary strayConditional).2 hne
  obtain rfl : k = 3 := by
    have hlength : strayConditional.length - k = 2 := by
      rw [← List.length_drop, ← hrecover]
      decide
    have hall : strayConditional.length = 5 := rfl
    omega
  exact ⟨hne, hleast, hrecover, hends, hkeywords⟩

end LoxLang.Grammar
