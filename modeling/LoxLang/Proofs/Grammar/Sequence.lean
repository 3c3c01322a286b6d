import LoxLang.Proofs.Grammar.Recognition

/-!
# A complete program in front

A declaration is read from its own tokens; of what stands behind them only an `else` counts, which a
conditional without one takes as its own. So tokens that are a program on their own are read as that
program wherever they stand in front of other tokens, and the others are read as if nothing stood
before them: their statements follow, and their errors are all the errors there are
(`parse_append_complete`).
-/

namespace LoxLang.Grammar

/-- The whole has the statements in front and then those of the later passage; it reports what that
passage reports, and ends where that passage ends. -/
structure Passage.Behind (later : Passage) (front : Program) (whole : Passage) : Prop where
  body : whole.body = front ++ later.body
  rest : whole.rest = later.rest
  reported : whole.reported = later.reported

/-- A declaration that is accepted stands in front of what is read after it. -/
theorem behind_of_accepts {inBlock : Bool} {trail : Trail} {tokens mid : List Token} {s : Stmt}
    {front : Program} {later : Passage} (hend : endsPassage inBlock tokens = false)
    (hfirst : (declaration false trail tokens).Accepts s mid)
    (hmore : later.Behind front (statements false inBlock trail mid)) :
    later.Behind (s :: front) (statements false inBlock trail tokens) := by
  obtain ⟨houtcome, hreported⟩ := hfirst
  have hwhole : statements false inBlock trail tokens =
      (statements false inBlock trail mid).cons s (declaration false trail tokens) := by
    rw [statements_eq, hend, if_neg Bool.false_ne_true, Reply.andThen, houtcome]
  rw [hwhole]
  exact ⟨congrArg (s :: ·) hmore.body, hmore.rest, by
    rw [Passage.cons, hreported, List.nil_append, hmore.reported]⟩

/-- **Declarations are read one by one**: those in order are read as they are, and then the rest as
it is on its own, if it does not begin with an `else`. -/
theorem behind_parts {inBlock : Bool} {trail : Trail} {rest : List Token}
    (helse : peek rest ≠ .kwElse) (parts : List (List Token × Stmt))
    (hparts : ∀ part ∈ parts, DerivesStmt .declaration part.1 part.2 ∧ part.2.ElseNearest) :
    (statements false inBlock trail rest).Behind (parts.map Prod.snd)
        (statements false inBlock trail (parts.flatMap Prod.fst ++ rest)) ∧
      peek (parts.flatMap Prod.fst ++ rest) ≠ .kwElse := by
  induction parts with
  | nil => exact ⟨⟨rfl, rfl, rfl⟩, helse⟩
  | cons part parts ih =>
    obtain ⟨⟨hderives, hnearest⟩, hparts⟩ := List.forall_mem_cons.mp hparts
    obtain ⟨hmore, helseMore⟩ := ih hparts
    obtain ⟨ts, s⟩ := part
    obtain ⟨first, more, rfl, hfirst⟩ := hderives.first
    have haccepts := hderives.completes hnearest trail (parts.flatMap Prod.fst ++ rest)
      fun _ => helseMore
    rw [List.flatMap_cons, List.append_assoc]
    exact ⟨behind_of_accepts (endsPassage_of_starts hfirst inBlock) haccepts hmore,
      (not_ends_of_starts hfirst).2.2⟩

/-- **A complete program in front of other tokens is read as it is on its own**, if an `else` does
not follow it. If the others are a program too, the whole is one with the statements of both; if
they are not, the errors are theirs. Either way the statements read begin with those of the program,
and the rest of them are those that are read without it. -/
theorem parse_append_complete {first second : List Token} {p : Program}
    (hne : ∀ token ∈ first, token.kind ≠ .eof) (hfirst : parse false first = .ok p)
    (helse : peek second ≠ .kwElse) :
    (∀ q, parse false second = .ok q → parse false (first ++ second) = .ok (p ++ q)) ∧
    (∀ errors, parse false second = .error errors →
      parse false (first ++ second) = .error errors) ∧
    (program false (first ++ second)).body = p ++ (program false second).body := by
  obtain ⟨hderives, hnearest⟩ := parse_eq_ok_iff_derivesProgram.mp hfirst
  have hbefore : beforeEnd first = first := List.takeWhile_eq_self_iff.mpr (by simpa using hne)
  rw [hbefore] at hderives
  obtain ⟨parts, hparts, rfl, rfl⟩ := hderives
  have hwhole : (program false second).Behind (parts.map Prod.snd)
      (program false (parts.flatMap Prod.fst ++ second)) :=
    (behind_parts helse parts fun part hpart =>
      ⟨hparts part hpart, hnearest _ (List.mem_map_of_mem hpart)⟩).1
  refine ⟨fun q hq => ?_, fun errors herrors => ?_, hwhole.body⟩
  · obtain ⟨hreported, rfl⟩ := parse_eq_ok_iff.mp hq
    exact parse_eq_ok_iff.mpr ⟨hwhole.reported.trans hreported, hwhole.body⟩
  · obtain ⟨hreported, herror⟩ := parse_eq_error_iff.mp herrors
    exact parse_eq_error_iff.mpr ⟨hwhole.reported.trans hreported, herror⟩

/-- The tokens of `if (true) nil;`, to which an `else` could be added. -/
def openConditional : List Token :=
  [⟨.kwIf, "if", none, 1⟩, ⟨.leftParen, "(", none, 1⟩, ⟨.kwTrue, "true", none, 1⟩,
    ⟨.rightParen, ")", none, 1⟩, ⟨.kwNil, "nil", none, 1⟩, ⟨.semicolon, ";", none, 1⟩]

/-- The conditional is read twice when it stands twice, and a brace behind it is the only error. -/
theorem parse_append_complete_openConditional :
    let conditional : Stmt :=
      .conditional (.literal (.boolean true)) (.expression (.literal .nil)) none
    let brace : Token := ⟨.rightBrace, "\x7d", none, 2⟩
    parse false (openConditional ++ openConditional) = .ok [conditional, conditional] ∧
    parse false (openConditional ++ [brace]) = .error [⟨brace, .expectedExpression⟩] := by
  intro conditional brace
  have hne : ∀ token ∈ openConditional, token.kind ≠ .eof := by decide
  have hconditional : parse false openConditional = .ok [conditional] := by decide +kernel
  have hbrace : parse false [brace] = .error [⟨brace, .expectedExpression⟩] := by decide +kernel
  exact ⟨(parse_append_complete hne hconditional (by decide)).1 _ hconditional,
    (parse_append_complete hne hconditional (by decide)).2.1 _ hbrace⟩

end LoxLang.Grammar
