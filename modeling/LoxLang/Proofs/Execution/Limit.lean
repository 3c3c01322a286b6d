import LoxLang.Proofs.Execution.Lines
import LoxLang.Proofs.Execution.Names
import LoxLang.Proofs.Execution.Output

/-!
# Outputs that take so many lines

An output may take some lines and refuse every one after them. A program that writes no more lines does
the same as where nothing is refused. One that writes more is stopped at the first line too many: what
was written and assigned before stays, the blocks around are closed, and nothing behind is run
(`Interpreter.interpret_takesOnly`).

A line is what one value is written as. If no value is written with a line feed in it, these are the
lines of the text.
-/

namespace LoxLang

section

variable {σ : Type} [Sink σ]

/-! ### Taking lines -/

/-- The output after lines were written to it, one by one. -/
def Sink.writeAll (lines : List String) (output : σ) : σ :=
  lines.foldl (fun after line => (Sink.writeLine line after).2) output

theorem Sink.writeAll_append (lines more : List String) (output : σ) :
    Sink.writeAll (lines ++ more) output = Sink.writeAll more (Sink.writeAll lines output) :=
  List.foldl_append

theorem Sink.writeAll_singleton (line : String) (output : σ) :
    Sink.writeAll [line] output = (Sink.writeLine line output).2 := rfl

/-- The output takes so many lines, and refuses every one after them. -/
structure Sink.TakesOnly (limit : Nat) (output : σ) : Prop where
  takes (lines : List String) (line : String) : lines.length < limit →
    (Sink.writeLine line (Sink.writeAll lines output)).1 = .ok ()
  refuses (lines : List String) (line : String) : limit ≤ lines.length →
    ∃ reason, (Sink.writeLine line (Sink.writeAll lines output)).1 = .error reason

/-- When as many lines were written as it takes, the output takes no other one. -/
theorem Sink.TakesOnly.after {limit : Nat} {output : σ} (h : Sink.TakesOnly limit output)
    {lines : List String} (hlines : limit ≤ lines.length) :
    Sink.TakesOnly 0 (Sink.writeAll lines output) where
  takes _ _ hless := absurd hless (Nat.not_lt_zero _)
  refuses more line _ := by
    rw [← Sink.writeAll_append]
    exact h.refuses (lines ++ more) line (by rw [List.length_append]; omega)

end

/-! ### Runs that are cut short -/

section

variable {σ τ : Type}

/-- How a run ends beside another one: in the same way, in the same scopes and with outputs that are
related; or where its output has refused a line, however the other one goes on. -/
inductive CutShort (keeps : σ → τ → Prop) (stops : String → σ → τ → Prop) :
    Except ExecutionError Unit × RunState σ → Except ExecutionError Unit × RunState τ → Prop where
  | alike {a : RunState σ} {b : RunState τ} (result : Except ExecutionError Unit) :
      RunState.Alike Eq keeps a b → CutShort keeps stops (result, a) (result, b)
  | stopped {a : RunState σ} {r : Except ExecutionError Unit × RunState τ} {reason : String} :
      stops reason a.output r.2.output → CutShort keeps stops (.error (.output reason), a) r

/-- Runs that begin with evaluating are cut short together, if they are so when they go on with the
value. (The matches stand in front of the hypotheses, as in `EndsAlike.evaluated`.) -/
theorem CutShort.evaluated {keeps : σ → τ → Prop} {stops : String → σ → τ → Prop}
    {r : Except RuntimeError Value × RunState σ} {r' : Except RuntimeError Value × RunState τ}
    {next : Value → RunState σ → Except ExecutionError Unit × RunState σ}
    {next' : Value → RunState τ → Except ExecutionError Unit × RunState τ} :
    EndsAlike Eq (RunState.Alike Eq keeps) r r' →
    (∀ value a b, RunState.Alike Eq keeps a b →
      CutShort keeps stops (next value a) (next' value b)) →
    CutShort keeps stops
      (match r with
        | (.error e, state) => (.error (.runtime e), state)
        | (.ok value, state) => next value state)
      (match r' with
        | (.error e, state) => (.error (.runtime e), state)
        | (.ok value, state) => next' value state) := by
  intro h hnext
  cases h with
  | ok value hstates => exact hnext value _ _ hstates
  | error herror hstates =>
    subst herror
    exact .alike _ hstates

/-- In the same scopes, an expression is evaluated alike. -/
theorem RunState.Alike.eval_same {keeps : σ → τ → Prop} {a : RunState σ} {b : RunState τ}
    (h : RunState.Alike Eq keeps a b) (e : Expr) :
    EndsAlike Eq (RunState.Alike Eq keeps) (a.eval e) (b.eval e) := by
  simp only [RunState.eval, ← h.scopes]
  rcases e.eval a.scopes with ⟨result, scopes⟩
  cases result with
  | ok value => exact .ok value ⟨rfl, h.output⟩
  | error error => exact .error rfl ⟨rfl, h.output⟩

variable [Sink σ] [Sink τ]

/-- A line is taken by both of two outputs, or the first one refuses it; and what is written to the
second one then does not matter. -/
structure Sink.CutsShort (keeps : σ → τ → Prop) (stops : String → σ → τ → Prop) : Prop where
  write {o : σ} {o' : τ} (line : String) : keeps o o' →
    (∃ after after', Sink.writeLine line o = (.ok (), after) ∧
      Sink.writeLine line o' = (.ok (), after') ∧ keeps after after') ∨
    ∃ reason after, Sink.writeLine line o = (.error reason, after) ∧
      stops reason after (Sink.writeLine line o').2
  written {reason : String} {o : σ} {o' after : τ} : stops reason o o' → Sink.Written o' after →
    stops reason o after

variable {keeps : σ → τ → Prop} {stops : String → σ → τ → Prop} {a : RunState σ} {b : RunState τ}

theorem RunState.write_cutShort (hcut : Sink.CutsShort keeps stops) (h : RunState.Alike Eq keeps a b)
    (value : Value) : CutShort keeps stops (a.write value) (b.write value) := by
  rcases hcut.write value.display h.output with
    ⟨after, after', hwrite, hwrite', hkeeps⟩ | ⟨reason, after, hwrite, hstops⟩
  · simp only [RunState.write, hwrite, hwrite']
    exact .alike _ ⟨h.scopes, hkeeps⟩
  · simp only [RunState.write, hwrite]
    exact .stopped hstops

/-- Statements that are cut short one by one are so together: behind the line that was refused, only the
other run goes on. -/
theorem Stmt.execAll_cutShort (hcut : Sink.CutsShort keeps stops) {echo : Bool} {body : List Stmt}
    (hbody : ∀ s ∈ body, ∀ (a : RunState σ) (b : RunState τ), RunState.Alike Eq keeps a b →
      CutShort keeps stops (s.exec echo a) (s.exec echo b))
    (h : RunState.Alike Eq keeps a b) :
    CutShort keeps stops (Stmt.execAll echo body a) (Stmt.execAll echo body b) := by
  induction body generalizing a b with
  | nil => exact .alike _ h
  | cons s body ih =>
    obtain ⟨hs, hrest⟩ := List.forall_mem_cons.mp hbody
    have hfirst := hs a b h
    simp only [Stmt.execAll]
    generalize s.exec echo a = r at hfirst
    generalize s.exec echo b = r' at hfirst
    cases hfirst with
    | alike result h =>
      cases result with
      | ok done => exact ih hrest h
      | error error => exact .alike _ h
    | stopped hstops =>
      -- The other run may go on with the statements behind, but all it can do is to write.
      refine .stopped (hcut.written hstops ?_)
      obtain ⟨result, state⟩ := r'
      cases result with
      | ok done => exact Stmt.execAll_written (fun s _ => s.exec_written echo) state
      | error error => exact .refl

/-- **A statement is cut short at one place**: it ends as beside it the other run does, or stops at the
first line that its output refuses. -/
theorem Stmt.exec_cutShort (hcut : Sink.CutsShort keeps stops) (echo : Bool) (s : Stmt)
    (h : RunState.Alike Eq keeps a b) : CutShort keeps stops (s.exec echo a) (s.exec echo b) := by
  induction s using Stmt.induct generalizing a b with
  | expression e =>
    simp only [Stmt.exec]
    refine CutShort.evaluated (h.eval_same e) fun value a b h => ?_
    split
    · exact RunState.write_cutShort hcut h value
    · exact .alike _ h
  | print e =>
    simp only [Stmt.exec]
    refine CutShort.evaluated (h.eval_same e) fun value a b h => ?_
    exact RunState.write_cutShort hcut h value
  | declare name initial =>
    cases initial with
    | none => exact .alike _ ⟨by rw [h.scopes], h.output⟩
    | some initial =>
      simp only [Stmt.exec]
      refine CutShort.evaluated (h.eval_same initial) fun value a b h => ?_
      exact .alike _ ⟨by rw [h.scopes], h.output⟩
  | block body ih =>
    have hopened : RunState.Alike Eq keeps { a with scopes := a.scopes.push }
        { b with scopes := b.scopes.push } := ⟨by rw [h.scopes], h.output⟩
    have hbody := Stmt.execAll_cutShort hcut (fun s hs a b => ih s hs) hopened
    simp only [Stmt.exec]
    generalize Stmt.execAll echo body { a with scopes := a.scopes.push } = r at hbody
    generalize Stmt.execAll echo body { b with scopes := b.scopes.push } = r' at hbody
    cases hbody with
    | alike result h => exact .alike _ ⟨by rw [h.scopes], h.output⟩
    | stopped hstops => exact .stopped hstops
  | conditional condition yes no ihyes ihno =>
    simp only [Stmt.exec]
    refine CutShort.evaluated (h.eval_same condition) fun value a b h => ?_
    split
    · exact ihyes h
    · cases no with
      | none => exact .alike _ h
      | some no => exact ihno no rfl h

end

/-! ### Beside a transcript -/

section

variable {σ : Type} [Sink σ]

/-- The output has taken every line that the transcript has, and it takes no more than so many. -/
structure Sink.KeepsUp (start : σ) (limit : Nat) (output : σ) (free : Transcript) : Prop where
  unlimited : free.limit = none
  size_le : free.lines.size ≤ limit
  output_eq : output = Sink.writeAll free.lines.toList start

/-- The output has taken as many lines of the transcript as it takes, and refused the next one. -/
def Sink.StopsAt (start : σ) (limit : Nat) (reason : String) (output : σ) (free : Transcript) : Prop :=
  ∃ line, free.lines.toList[limit]? = some line ∧
    Sink.writeLine line (Sink.writeAll (free.lines.toList.take limit) start) = (.error reason, output)

/-- Lines that come behind in the transcript are not looked at. -/
theorem Sink.StopsAt.written {start output : σ} {limit : Nat} {reason : String}
    {free after : Transcript} (h : Sink.StopsAt start limit reason output free)
    (hwritten : Sink.Written free after) : Sink.StopsAt start limit reason output after := by
  obtain ⟨line, hline, hrefused⟩ := h
  obtain ⟨more, hmore⟩ := Transcript.exists_lines_of_written hwritten
  have hlength : limit < free.lines.toList.length := (List.getElem?_eq_some_iff.mp hline).1
  refine ⟨line, ?_, ?_⟩
  · rw [hmore, List.getElem?_append_left hlength, hline]
  · rw [hmore, List.take_append_of_le_length hlength.le, hrefused]

theorem Transcript.writeLine_of_unlimited {free : Transcript} (h : free.limit = none) (line : String) :
    Sink.writeLine line free = (.ok (), { free with lines := free.lines.push line }) := by
  simp [Sink.writeLine, Transcript.write, Transcript.isFull, h]

/-- An output that takes so many lines is cut short beside a transcript without a limit. -/
theorem Sink.TakesOnly.cutsShort {start : σ} {limit : Nat} (h : Sink.TakesOnly limit start) :
    Sink.CutsShort (Sink.KeepsUp start limit) (Sink.StopsAt start limit) where
  write {output free} line hkeeps := by
    obtain ⟨hunlimited, hsize, rfl⟩ := hkeeps
    rw [Transcript.writeLine_of_unlimited hunlimited]
    rcases hsize.lt_or_eq with hless | hfull
    · have htaken := h.takes free.lines.toList line (by simpa using hless)
      refine .inl ⟨_, _, Prod.ext htaken rfl, rfl, hunlimited, ?_, ?_⟩
      · simpa using hless
      · rw [Array.toList_push, Sink.writeAll_append, Sink.writeAll_singleton]
    · obtain ⟨reason, hrefused⟩ := h.refuses free.lines.toList line (by simp [hfull])
      refine .inr ⟨reason, _, Prod.ext hrefused rfl, line, ?_, ?_⟩
      · simp [← hfull]
      · rw [Array.toList_push, ← hfull, ← Array.length_toList, List.take_left]
        exact Prod.ext hrefused rfl
  written := Sink.StopsAt.written

/-- A transcript with a limit has the first lines of all that were written to it. -/
theorem Transcript.writeAll_limitedTo (lines : List String) (limit : Nat) :
    Sink.writeAll lines (Transcript.limitedTo limit) = ⟨(lines.take limit).toArray, some limit⟩ := by
  induction lines using List.reverseRecOn with
  | nil => simp [Sink.writeAll, Transcript.limitedTo]
  | append_singleton lines line ih =>
    rw [Sink.writeAll_append, ih, Sink.writeAll_singleton]
    simp only [Sink.writeLine, Transcript.write, Transcript.isFull, List.size_toArray,
      List.length_take]
    split
    · next hfull =>
      have hle : limit ≤ lines.length := by simpa using hfull
      rw [List.take_append_of_le_length hle]
    · next hroom =>
      have hless : lines.length < limit := by simpa using hroom
      rw [List.take_of_length_le hless.le, List.take_of_length_le (by simpa using hless),
        List.push_toArray]

/-- A transcript with a limit takes so many lines. -/
theorem Transcript.takesOnly_limitedTo (limit : Nat) :
    Sink.TakesOnly limit (Transcript.limitedTo limit) where
  takes lines line hless := by
    rw [writeAll_limitedTo]
    simp [Sink.writeLine, write, isFull, Nat.not_le.mpr hless]
  refuses lines line hle := by
    rw [writeAll_limitedTo]
    simp [Sink.writeLine, write, isFull, hle]

end

/-! ### Where a run stops -/

variable {σ : Type} [Sink σ]

/-- The run of a statement stops where the output refuses a line: the scopes are those in which the
value was found, less those of the blocks around, and the output is as it was left by the refusal. -/
inductive Stmt.RefusedAt (echo : Bool) (reason : String) : Stmt → RunState σ → RunState σ → Prop where
  | expression {e : Expr} {value : Value} {state mid after : RunState σ} : echo = true →
      state.eval e = (.ok value, mid) → mid.write value = (.error (.output reason), after) →
      RefusedAt echo reason (.expression e) state after
  | print {e : Expr} {value : Value} {state mid after : RunState σ} :
      state.eval e = (.ok value, mid) → mid.write value = (.error (.output reason), after) →
      RefusedAt echo reason (.print e) state after
  | block {body : List Stmt} {state after : RunState σ} {start : Stmt.Start σ} :
      Program.Reaches echo body { state with scopes := state.scopes.push } start →
      RefusedAt echo reason start.stmt start.state after →
      RefusedAt echo reason (.block body) state { after with scopes := after.scopes.pop }
  | yes {condition : Expr} {yes : Stmt} {no : Option Stmt} {value : Value}
      {state mid after : RunState σ} :
      state.eval condition = (.ok value, mid) → value.isTruthy = true →
      RefusedAt echo reason yes mid after →
      RefusedAt echo reason (.conditional condition yes no) state after
  | no {condition : Expr} {yes no : Stmt} {value : Value} {state mid after : RunState σ} :
      state.eval condition = (.ok value, mid) → value.isTruthy = false →
      RefusedAt echo reason no mid after →
      RefusedAt echo reason (.conditional condition yes (some no)) state after

/-- **If the output fails, a line was refused**, and nothing was done after it but to close the blocks
around. -/
theorem Stmt.refusedAt_of_exec {echo : Bool} {reason : String} {s : Stmt} {state after : RunState σ}
    (h : s.exec echo state = (.error (.output reason), after)) :
    s.RefusedAt echo reason state after := by
  induction s using Stmt.induct generalizing state after with
  | expression e =>
    unfold Stmt.exec at h
    split at h
    · exact absurd (congrArg Prod.fst h) (by simp)
    · next hvalue =>
      split at h
      · next hecho => exact .expression hecho hvalue h
      · exact absurd (congrArg Prod.fst h) (by simp)
  | print e =>
    unfold Stmt.exec at h
    split at h
    · exact absurd (congrArg Prod.fst h) (by simp)
    · next hvalue => exact .print hvalue h
  | declare name initial =>
    cases initial with
    | none => exact absurd (congrArg Prod.fst h) (by simp [Stmt.exec])
    | some initial =>
      unfold Stmt.exec at h
      split at h
      · exact absurd (congrArg Prod.fst h) (by simp)
      · exact absurd (congrArg Prod.fst h) (by simp)
  | block body ih =>
    rcases hbody : Stmt.execAll echo body { state with scopes := state.scopes.push } with
      ⟨result, last⟩
    simp only [Stmt.exec, hbody] at h
    cases h
    obtain ⟨start, hreaches, hstop⟩ := Program.exists_reaches_of_error hbody
    have hmem : start.stmt ∈ body := by
      obtain ⟨⟨later, rfl⟩, -⟩ := hreaches
      exact List.mem_append_right _ List.mem_cons_self
    exact .block hreaches (ih start.stmt hmem hstop)
  | conditional condition yes no ihyes ihno =>
    unfold Stmt.exec at h
    split at h
    · exact absurd (congrArg Prod.fst h) (by simp)
    · next value mid hvalue =>
      split at h
      · next htruthy => exact .yes hvalue htruthy (ihyes h)
      · next htruthy =>
        cases no with
        | none => exact absurd (congrArg Prod.fst h) (by simp)
        | some no => exact .no hvalue (by simpa using htruthy) (ihno no rfl h)

/-! ### Programs -/

namespace Interpreter

variable {limit : Nat} {output : σ}

/-- Either all lines are taken, and the run is the same; or one is not, and the run ends with the
refusal, right after the lines that are taken. -/
theorem interpret_cutShort (hlimit : Sink.TakesOnly limit output) (interpreter : Interpreter)
    (program : Program) :
    let free := interpreter.interpret program Transcript.unlimited
    let lines := free.2.2.lines.toList
    let limited := interpreter.interpret program output
    (lines.length ≤ limit ∧ limited = (free.1, free.2.1, Sink.writeAll lines output)) ∨
    ∃ line reason, lines[limit]? = some line ∧ limited.1 = .error (.output reason) ∧
      Sink.writeLine line (Sink.writeAll (lines.take limit) output) =
        (.error reason, limited.2.2) := by
  have hruns := Stmt.execAll_cutShort hlimit.cutsShort
    (fun s (_ : s ∈ program) _ _ => s.exec_cutShort hlimit.cutsShort interpreter.echo)
    (a := ⟨interpreter.scopes, output⟩) (b := ⟨interpreter.scopes, Transcript.unlimited⟩)
    ⟨rfl, rfl, Nat.zero_le limit, rfl⟩
  simp only [interpret]
  generalize Stmt.execAll interpreter.echo program ⟨interpreter.scopes, output⟩ = r at hruns
  generalize Stmt.execAll interpreter.echo program ⟨interpreter.scopes, Transcript.unlimited⟩ = r'
    at hruns
  cases hruns with
  | alike result h => exact .inl ⟨h.output.size_le, by rw [h.scopes, h.output.output_eq]⟩
  | @stopped _ _ reason hstops =>
    obtain ⟨line, hline, hrefused⟩ := hstops
    exact .inr ⟨line, reason, hline, rfl, hrefused⟩

/-- Where all lines are taken, the run is the same. -/
theorem interpret_of_lines_le (hlimit : Sink.TakesOnly limit output) (interpreter : Interpreter)
    (program : Program) :
    let free := interpreter.interpret program Transcript.unlimited
    free.2.2.lines.toList.length ≤ limit →
    interpreter.interpret program output =
      (free.1, free.2.1, Sink.writeAll free.2.2.lines.toList output) := by
  intro free hfew
  rcases interpret_cutShort hlimit interpreter program with ⟨-, hsame⟩ | ⟨line, -, hline, -⟩
  · exact hsame
  · exact absurd (List.getElem?_eq_some_iff.mp hline).1 (Nat.not_lt.mpr hfew)

/-- Where a line is not taken, the run ends with the refusal, right after the lines that are taken. -/
theorem interpret_of_limit_lt (hlimit : Sink.TakesOnly limit output) (interpreter : Interpreter)
    (program : Program) :
    let lines := (interpreter.interpret program Transcript.unlimited).2.2.lines.toList
    let limited := interpreter.interpret program output
    limit < lines.length →
    ∃ line reason, lines[limit]? = some line ∧ limited.1 = .error (.output reason) ∧
      Sink.writeLine line (Sink.writeAll (lines.take limit) output) =
        (.error reason, limited.2.2) := by
  intro lines limited hmore
  rcases interpret_cutShort hlimit interpreter program with ⟨hfew, -⟩ | hstopped
  · exact absurd hmore (Nat.not_lt.mpr hfew)
  · exact hstopped

/-- A run that ends with a refusal stops there: nothing that comes later in the program is looked at. -/
theorem exists_refusedAt {interpreter : Interpreter} {program : Program} {reason : String}
    (h : (interpreter.interpret program output).1 = .error (.output reason)) :
    let limited := interpreter.interpret program output
    ∃ start, program.Reaches interpreter.echo ⟨interpreter.scopes, output⟩ start ∧
      start.stmt.RefusedAt interpreter.echo reason start.state ⟨limited.2.1.scopes, limited.2.2⟩ ∧
      ∀ later, interpreter.interpret (start.before ++ start.stmt :: later) output = limited := by
  rcases hrun : Stmt.execAll interpreter.echo program ⟨interpreter.scopes, output⟩ with
    ⟨result, last⟩
  simp only [interpret, hrun] at h ⊢
  subst h
  obtain ⟨start, hreaches, hstop⟩ := Program.exists_reaches_of_error hrun
  refine ⟨start, hreaches, Stmt.refusedAt_of_exec hstop, fun later => ?_⟩
  rw [Stmt.execAll_append_of_ok hreaches.2]
  simp only [Stmt.execAll, hstop]

/-- A transcript with a limit gets the first lines of those that are written without one. -/
theorem lines_interpret_limitedTo (limit : Nat) (interpreter : Interpreter) (program : Program) :
    (interpreter.interpret program (Transcript.limitedTo limit)).2.2.lines.toList =
      (interpreter.interpret program Transcript.unlimited).2.2.lines.toList.take limit := by
  have hlimit := Transcript.takesOnly_limitedTo limit
  rcases Nat.lt_or_ge limit
    (interpreter.interpret program Transcript.unlimited).2.2.lines.toList.length with hmore | hfew
  · obtain ⟨line, reason, -, -, hrefused⟩ := interpret_of_limit_lt hlimit interpreter program hmore
    rw [← congrArg Prod.snd hrefused, ← Sink.writeAll_singleton, ← Sink.writeAll_append,
      Transcript.writeAll_limitedTo]
    exact List.take_left' (List.length_take_of_le hmore.le)
  · rw [interpret_of_lines_le hlimit interpreter program hfew, Transcript.writeAll_limitedTo]

/-- What writes nothing does not need an output that takes anything. -/
theorem interpret_of_lines_eq_empty (hlimit : Sink.TakesOnly 0 output) (interpreter : Interpreter)
    (program : Program) :
    let free := interpreter.interpret program Transcript.unlimited
    free.2.2.lines = #[] → interpreter.interpret program output = (free.1, free.2.1, output) := by
  intro free hnone
  have hrun := interpret_of_lines_le hlimit interpreter program (by simp [free, hnone])
  rw [hrun, hnone]
  rfl

/-- **A limited output cuts a run short at one place.** Beside the run where nothing is refused, let an
output take so many lines. If no more are written, the run is the same. If more are written, the run
ends with the refusal, whatever would have come then; the lines before were taken, and the scopes are as
they were where the line was refused, with the blocks around closed. Nothing behind that line has been
run, and what writes nothing can still be run. -/
theorem interpret_takesOnly (hlimit : Sink.TakesOnly limit output) (interpreter : Interpreter)
    (program : Program) :
    let free := interpreter.interpret program Transcript.unlimited
    let lines := free.2.2.lines.toList
    let limited := interpreter.interpret program output
    (lines.length ≤ limit → limited = (free.1, free.2.1, Sink.writeAll lines output)) ∧
    (limit < lines.length →
      ∃ line reason, lines[limit]? = some line ∧ limited.1 = .error (.output reason) ∧
        Sink.writeLine line (Sink.writeAll (lines.take limit) output) =
          (.error reason, limited.2.2) ∧
        (∃ start, program.Reaches interpreter.echo ⟨interpreter.scopes, output⟩ start ∧
          start.stmt.RefusedAt interpreter.echo reason start.state
            ⟨limited.2.1.scopes, limited.2.2⟩ ∧
          ∀ later, interpreter.interpret (start.before ++ start.stmt :: later) output = limited) ∧
        limited.2.1.scopes.depth = interpreter.scopes.depth ∧
        ∀ next, let alone := limited.2.1.interpret next Transcript.unlimited
          alone.2.2.lines = #[] →
          limited.2.1.interpret next limited.2.2 = (alone.1, alone.2.1, limited.2.2)) := by
  intro free lines limited
  refine ⟨interpret_of_lines_le hlimit interpreter program, fun hmore => ?_⟩
  obtain ⟨line, reason, hline, hresult, hrefused⟩ :=
    interpret_of_limit_lt hlimit interpreter program hmore
  have hafter : Sink.TakesOnly 0 limited.2.2 := by
    have hwritten : limited.2.2 = Sink.writeAll (lines.take limit ++ [line]) output := by
      rw [Sink.writeAll_append, Sink.writeAll_singleton, hrefused]
    rw [hwritten]
    exact hlimit.after (by simp [hmore.le])
  exact ⟨line, reason, hline, hresult, hrefused, exists_refusedAt hresult,
    Stmt.execAll_depth interpreter.echo program ⟨interpreter.scopes, output⟩,
    fun next => interpret_of_lines_eq_empty hafter limited.2.1 next⟩

/-- `var a = false; print a; { if (true) print a = true; } print nil;` -/
def printedAssignment : Program :=
  let a : Token := ⟨.identifier, "a", none, 1⟩
  [.declare a (some (.literal (.boolean false))), .print (.variable a),
    .block [.conditional (.literal (.boolean true))
      (.print (.assign a (.literal (.boolean true)))) none],
    .print (.literal .nil)]

/-- The three lines are taken where three are. Where one is, the second is refused, in a block and after
the assignment, which stays; and then the name can still be given another value. -/
theorem interpret_takesOnly_printedAssignment :
    let limited := (Interpreter.new false).interpret printedAssignment (Transcript.limitedTo 1)
    let forget : Program := [.expression (.assign ⟨.identifier, "a", none, 2⟩ (.literal .nil))]
    Sink.TakesOnly 3 (Transcript.limitedTo 3) ∧ Sink.TakesOnly 1 (Transcript.limitedTo 1) ∧
    (Interpreter.new false).interpret printedAssignment (Transcript.limitedTo 3) =
      (.ok (), ⟨⟨⟨[("a", some (.boolean true))]⟩, []⟩, false⟩,
        ⟨#["false", "true", "nil"], some 3⟩) ∧
    limited.1 = .error (.output "closed") ∧ limited.2.2 = ⟨#["false"], some 1⟩ ∧
    limited.2.1.scopes = ⟨⟨[("a", some (.boolean true))]⟩, []⟩ ∧
    limited.2.1.interpret forget limited.2.2 =
      (.ok (), ⟨⟨⟨[("a", some .nil)]⟩, []⟩, false⟩, ⟨#["false"], some 1⟩) := by
  intro limited forget
  have hthree := Transcript.takesOnly_limitedTo 3
  have hone := Transcript.takesOnly_limitedTo 1
  have hwhole := (interpret_takesOnly hthree (Interpreter.new false) printedAssignment).1
    (by decide +kernel)
  obtain ⟨line, reason, -, -, -, -, -, hnext⟩ :=
    (interpret_takesOnly hone (Interpreter.new false) printedAssignment).2 (by decide +kernel)
  have hforget := hnext forget (by decide +kernel)
  exact ⟨hthree, hone, hwhole.trans (by decide +kernel), by decide +kernel, by decide +kernel,
    by decide +kernel, hforget.trans (by decide +kernel)⟩

end Interpreter

end LoxLang
