import Mathlib.Data.List.TakeWhile
import LoxLang.Proofs.Grammar.OtherLines

/-!
# Nothing is read behind the end

An end token is the end: a rule answers the same whatever tokens stand behind the first end
token (`parse_upToEnd`), with the same errors and the same traces. And no end token belongs to
anything that the grammar derives (`DerivesProgram.ne_eof`).
-/

namespace LoxLang

/-! ### Trees on their own lines -/

theorem Expr.mapLine_id : ∀ e : Expr, e.mapLine id = e
  | .literal _ | .variable _ => rfl
  | .grouping inner => by rw [Expr.mapLine, mapLine_id inner]
  | .unary op token right => by rw [Expr.mapLine, Token.mapLine, mapLine_id right]; rfl
  | .binary left op token right => by
    rw [Expr.mapLine, Token.mapLine, mapLine_id left, mapLine_id right]; rfl
  | .assign name value => by rw [Expr.mapLine, Token.mapLine, mapLine_id value]; rfl

theorem Stmt.mapLine_id (s : Stmt) : s.mapLine id = s := by
  induction s using Stmt.induct with
  | expression e | print e => simp [Stmt.mapLine, Expr.mapLine_id]
  | declare name initial => cases initial <;> simp [Stmt.mapLine, Token.mapLine, Expr.mapLine_id]
  | block body ih => rw [Stmt.mapLine_block, List.map_congr_left ih, List.map_id']
  | conditional condition yes no ihyes ihno =>
    cases no with
    | none => simp [Stmt.mapLine, Expr.mapLine_id, ihyes]
    | some no => simp [Stmt.mapLine, Expr.mapLine_id, ihyes, ihno no rfl]

namespace Grammar

/-! ### Tokens up to the end -/

/-- The tokens up to the first end token, that one included. -/
def upToEnd : List Token → List Token
  | [] => []
  | token :: rest => if token.kind = .eof then [token] else token :: upToEnd rest

theorem upToEnd_of_eof {token : Token} {rest : List Token} (h : token.kind = .eof) :
    upToEnd (token :: rest) = [token] := by
  rw [upToEnd, if_pos h]

theorem upToEnd_of_ne_eof {token : Token} {rest : List Token} (h : token.kind ≠ .eof) :
    upToEnd (token :: rest) = token :: upToEnd rest := by
  rw [upToEnd, if_neg h]

theorem shown_upToEnd (tokens : List Token) : Shown id tokens (upToEnd tokens) := by
  induction tokens with
  | nil => exact .nil
  | cons token rest ih =>
    by_cases h : token.kind = .eof
    · rw [upToEnd_of_eof h]
      exact .last h
    · rw [upToEnd_of_ne_eof h]
      exact .cons h ih

/-- **Nothing behind the end counts**: the tokens behind the first end token change neither the
program nor the errors. -/
theorem parse_upToEnd (lenient : Bool) (tokens : List Token) :
    parse lenient (upToEnd tokens) = parse lenient tokens := by
  have hshown := program_shown rfl lenient (shown_upToEnd tokens)
  have hbody : (program lenient (upToEnd tokens)).body = (program lenient tokens).body := by
    rw [hshown.body, List.map_congr_left fun s _ => Stmt.mapLine_id s, List.map_id']
  have hreported : (program lenient (upToEnd tokens)).reported =
      (program lenient tokens).reported := by
    rw [hshown.reported]
    exact List.map_id _
  rw [parse, parse, hbody, hreported]

/-! ### The tokens before the end -/

/-- The tokens before the first end token. -/
def beforeEnd (tokens : List Token) : List Token := tokens.takeWhile fun token => token.kind != .eof

/-- The tokens from the first end token on. -/
def fromEnd (tokens : List Token) : List Token := tokens.dropWhile fun token => token.kind != .eof

theorem beforeEnd_append_fromEnd (tokens : List Token) : beforeEnd tokens ++ fromEnd tokens = tokens :=
  List.takeWhile_append_dropWhile

theorem ne_eof_of_mem_beforeEnd {tokens : List Token} :
    ∀ token ∈ beforeEnd tokens, token.kind ≠ .eof := by
  intro token htoken
  simpa using List.mem_takeWhile_imp htoken

theorem atEnd_fromEnd (tokens : List Token) : atEnd (fromEnd tokens) = true := by
  induction tokens with
  | nil => rfl
  | cons token tokens ih =>
    by_cases h : token.kind = .eof
    · simp [fromEnd, h, atEnd, peek]
    · simpa [fromEnd, h] using ih

theorem beforeEnd_append {ts rest : List Token} (hts : ∀ token ∈ ts, token.kind ≠ .eof)
    (hend : atEnd rest = true) : beforeEnd (ts ++ rest) = ts := by
  induction ts with
  | nil =>
    cases rest with
    | nil => rfl
    | cons token rest =>
      have hkind : token.kind = .eof := by simpa [atEnd, peek] using hend
      simp [beforeEnd, hkind]
  | cons token ts ih =>
    obtain ⟨htoken, hts⟩ := List.forall_mem_cons.mp hts
    simpa [beforeEnd, htoken] using ih hts

theorem fromEnd_append {ts rest : List Token} (hts : ∀ token ∈ ts, token.kind ≠ .eof)
    (hend : atEnd rest = true) : fromEnd (ts ++ rest) = rest := by
  have hsplit := beforeEnd_append_fromEnd (ts ++ rest)
  rw [beforeEnd_append hts hend] at hsplit
  exact List.append_cancel_left hsplit

/-- What stands behind an end token is cut off. -/
theorem upToEnd_append_eof (earlier later : List Token) {last : Token} (hlast : last.kind = .eof) :
    upToEnd (earlier ++ last :: later) = upToEnd (earlier ++ [last]) := by
  induction earlier with
  | nil => rw [List.nil_append, List.nil_append, upToEnd_of_eof hlast, upToEnd_of_eof hlast]
  | cons token earlier ih =>
    rw [List.cons_append, List.cons_append]
    by_cases h : token.kind = .eof
    · rw [upToEnd_of_eof h, upToEnd_of_eof h]
    · rw [upToEnd_of_ne_eof h, upToEnd_of_ne_eof h, ih]

/-! ### No end token is derived -/

/-- The kinds of token that an expression may hold. -/
def inExpr : TokenKind → Bool
  | .number | .string | .kwTrue | .kwFalse | .kwNil | .identifier | .leftParen | .rightParen
  | .minus | .plus | .slash | .star | .bang | .bangEqual | .equal | .equalEqual
  | .greater | .greaterEqual | .less | .lessEqual => true
  | _ => false

theorem ne_of_inExpr {kind other : TokenKind} (h : inExpr kind = true)
    (hother : inExpr other = false) : kind ≠ other := by
  rintro rfl
  simp [h] at hother

theorem Level.Infix.inExpr {level : Level} {kind : TokenKind} {op : BinaryOp}
    (h : level.Infix kind op) : inExpr kind = true := by
  cases h <;> rfl

theorem Prefixed.inExpr {kind : TokenKind} {op : UnaryOp} (h : Prefixed kind op) :
    inExpr kind = true := by
  cases h <;> rfl

/-- What tokens an expression is derived from. -/
theorem DerivesExpr.inExpr {rule : Rule} {ts : List Token} {e : Expr} (h : DerivesExpr rule ts e) :
    ∀ token ∈ ts, inExpr token.kind = true := by
  induction h with
  | expression _ ih => exact ih
  | value _ ih => exact ih
  | operand _ ih => exact ih
  | primary _ ih => exact ih
  | assign _ hequals _ ihtarget ihvalue =>
    exact List.forall_mem_append.mpr
      ⟨ihtarget, List.forall_mem_cons.mpr ⟨by rw [hequals]; rfl, ihvalue⟩⟩
  | operation _ hop _ ihleft ihright =>
    exact List.forall_mem_append.mpr ⟨ihleft, List.forall_mem_cons.mpr ⟨hop.inExpr, ihright⟩⟩
  | unary hprefixed _ ih => exact List.forall_mem_cons.mpr ⟨hprefixed.inExpr, ih⟩
  | number hkind _ | string hkind _ =>
    exact List.forall_mem_singleton.mpr (by rw [hkind]; rfl)
  | truth hkind | falsity hkind | nil hkind | name hkind =>
    exact List.forall_mem_singleton.mpr (by rw [hkind]; rfl)
  | grouping hopening _ hclosing ih =>
    refine List.forall_mem_cons.mpr ⟨by rw [hopening]; rfl, List.forall_mem_append.mpr ⟨ih, ?_⟩⟩
    exact List.forall_mem_singleton.mpr (by rw [hclosing]; rfl)

theorem DerivesExpr.ne_eof {rule : Rule} {ts : List Token} {e : Expr} (h : DerivesExpr rule ts e) :
    ∀ token ∈ ts, token.kind ≠ .eof :=
  fun token htoken => ne_of_inExpr (h.inExpr token htoken) rfl

theorem DerivesStmt.ne_eof {rule : Rule} {ts : List Token} {s : Stmt} (h : DerivesStmt rule ts s) :
    ∀ token ∈ ts, token.kind ≠ .eof := by
  induction h with
  | choice _ _ ih => exact ih
  | declare hkeyword hname hsemicolon => simp [hkeyword, hname, hsemicolon]
  | define hkeyword hname hequals hinitial hsemicolon =>
    simp only [List.forall_mem_cons, List.forall_mem_append]
    exact ⟨by simp [hkeyword], by simp [hname], by simp [hequals],
      hinitial.ne_eof, by simp [hsemicolon]⟩
  | conditional hkeyword hopening hcondition hclosing _ ih =>
    simp only [List.forall_mem_cons, List.forall_mem_append]
    exact ⟨by simp [hkeyword], by simp [hopening], hcondition.ne_eof, by simp [hclosing], ih⟩
  | alternative hkeyword hopening hcondition hclosing _ hother _ ihyes ihno =>
    simp only [List.forall_mem_cons, List.forall_mem_append]
    exact ⟨by simp [hkeyword], by simp [hopening], hcondition.ne_eof, by simp [hclosing], ihyes,
      by simp [hother], ihno⟩
  | print hkeyword hvalue hsemicolon =>
    simp only [List.forall_mem_cons, List.forall_mem_append]
    exact ⟨by simp [hkeyword], hvalue.ne_eof, by simp [hsemicolon]⟩
  | body hopening _ hclosing ih =>
    simp only [List.forall_mem_cons, List.forall_mem_append]
    refine ⟨by simp [hopening], fun token htoken => ?_, by simp [hclosing]⟩
    obtain ⟨part, hpart, hmem⟩ := List.mem_flatMap.mp htoken
    exact ih part hpart token hmem
  | expression hvalue hsemicolon =>
    simp only [List.forall_mem_append, List.forall_mem_singleton]
    exact ⟨hvalue.ne_eof, by simp [hsemicolon]⟩

/-- No end token belongs to a program. -/
theorem DerivesProgram.ne_eof {ts : List Token} {body : Program} (h : DerivesProgram ts body) :
    ∀ token ∈ ts, token.kind ≠ .eof := by
  obtain ⟨parts, hparts, rfl, rfl⟩ := h
  intro token htoken
  obtain ⟨part, hpart, hmem⟩ := List.mem_flatMap.mp htoken
  exact (hparts part hpart).ne_eof token hmem

end Grammar

end LoxLang
