import LoxLang.Execution.Interpreter
import LoxLang.Proofs.Scope.Bindings
import LoxLang.Proofs.Tree.Changes
import LoxLang.Proofs.Tree.Mentions

/-!
# Two runs side by side

Two programs are alike if they are built alike from tokens that match, whatever groupings there are.
Their runs go side by side if the operations on scopes and on the output do: where those keep a
relation between the two states, both runs end in the same way, in states that are related
(`Stmt.Alike.exec`). What is matched and related is left open. So one may compare a program with a
changed one, or a program with itself in two states; or follow what a single run keeps, as one that
goes beside itself.
-/

namespace LoxLang

/-! ### Trees that are alike -/

/-- Which tokens of a tree match which of another: names that are read, that are assigned to and that
are declared inside so many blocks, and operators. -/
structure Matching where
  reads : Token → Token → Prop
  assigns : Token → Token → Prop
  declares : Nat → Token → Token → Prop
  operators : Token → Token → Prop

/-- Expressions that are alike but for groupings. -/
inductive Expr.Alike (m : Matching) : Expr → Expr → Prop where
  | literal (value : Value) : Alike m (.literal value) (.literal value)
  | «variable» {x x' : Token} : m.reads x x' → Alike m (.variable x) (.variable x')
  | assign {x x' : Token} {e e' : Expr} : m.assigns x x' → Alike m e e' →
      Alike m (.assign x e) (.assign x' e')
  | unary {op : UnaryOp} {t t' : Token} {e e' : Expr} : m.operators t t' → Alike m e e' →
      Alike m (.unary op t e) (.unary op t' e')
  | binary {op : BinaryOp} {t t' : Token} {left left' right right' : Expr} : Alike m left left' →
      m.operators t t' → Alike m right right' →
      Alike m (.binary left op t right) (.binary left' op t' right')
  | groupingLeft {e e' : Expr} : Alike m e e' → Alike m (.grouping e) e'
  | groupingRight {e e' : Expr} : Alike m e e' → Alike m e (.grouping e')

/-- Statements that are alike, inside so many blocks. -/
inductive Stmt.Alike (m : Matching) : Nat → Stmt → Stmt → Prop where
  | expression {n : Nat} {e e' : Expr} : e.Alike m e' → Alike m n (.expression e) (.expression e')
  | print {n : Nat} {e e' : Expr} : e.Alike m e' → Alike m n (.print e) (.print e')
  | declare {n : Nat} {x x' : Token} : m.declares n x x' →
      Alike m n (.declare x none) (.declare x' none)
  | define {n : Nat} {x x' : Token} {e e' : Expr} : m.declares n x x' → e.Alike m e' →
      Alike m n (.declare x (some e)) (.declare x' (some e'))
  | block {n : Nat} {parts : List (Stmt × Stmt)} :
      (∀ part ∈ parts, Alike m (n + 1) part.1 part.2) →
      Alike m n (.block (parts.map Prod.fst)) (.block (parts.map Prod.snd))
  | conditional {n : Nat} {condition condition' : Expr} {yes yes' : Stmt} :
      condition.Alike m condition' → Alike m n yes yes' →
      Alike m n (.conditional condition yes none) (.conditional condition' yes' none)
  | alternative {n : Nat} {condition condition' : Expr} {yes yes' no no' : Stmt} :
      condition.Alike m condition' → Alike m n yes yes' → Alike m n no no' →
      Alike m n (.conditional condition yes (some no)) (.conditional condition' yes' (some no'))

/-- Statements and what becomes of them, as parts of two lists. -/
theorem Stmt.alike_parts {m : Matching} {n : Nat} {body : List Stmt} {f : Stmt → Stmt}
    (h : ∀ s ∈ body, s.Alike m n (f s)) :
    ∃ parts : List (Stmt × Stmt), (∀ part ∈ parts, part.1.Alike m n part.2) ∧
      parts.map Prod.fst = body ∧ parts.map Prod.snd = body.map f := by
  refine ⟨body.map fun s => (s, f s), fun part hpart => ?_, by simp [Function.comp_def],
    by simp [Function.comp_def]⟩
  obtain ⟨s, hs, rfl⟩ := List.mem_map.mp hpart
  exact h s hs

/-- Blocks are alike if one holds what the other does, changed to what is alike. -/
theorem Stmt.Alike.block_map {m : Matching} {n : Nat} {body : List Stmt} {f : Stmt → Stmt}
    (h : ∀ s ∈ body, s.Alike m (n + 1) (f s)) : (Stmt.block body).Alike m n (.block (body.map f)) := by
  obtain ⟨parts, hparts, rfl, hmap⟩ := Stmt.alike_parts h
  rw [← hmap]
  exact .block hparts

/-- A statement is like the one with its parts changed, if the parts are. -/
theorem Stmt.alike_mapParts {m : Matching} {ofExpr : Expr → Expr} {ofName : Token → Token}
    (hexpr : ∀ e : Expr, e.Alike m (ofExpr e)) (hname : ∀ n x, m.declares n x (ofName x)) (n : Nat)
    (s : Stmt) : s.Alike m n (s.mapParts ofExpr ofName) := by
  induction s using Stmt.induct generalizing n with
  | expression e => exact .expression (hexpr e)
  | print e => exact .print (hexpr e)
  | declare name initial =>
    cases initial with
    | none => exact .declare (hname n name)
    | some initial => exact .define (hname n name) (hexpr initial)
  | block body ih =>
    rw [Stmt.mapParts_block]
    exact .block_map fun s hs => ih s hs (n + 1)
  | conditional condition yes no ihyes ihno =>
    cases no with
    | none => exact .conditional (hexpr condition) (ihyes n)
    | some no => exact .alternative (hexpr condition) (ihyes n) (ihno no rfl n)

/-- An expression is like itself if its tokens match themselves. -/
theorem Expr.alike_self {m : Matching} (e : Expr)
    (hreads : ∀ x : Token, x.lexeme ∈ e.names → m.reads x x)
    (hassigns : ∀ x : Token, x.lexeme ∈ e.assigned → m.assigns x x)
    (hoperators : ∀ t, m.operators t t) : e.Alike m e := by
  induction e with
  | literal value => exact .literal value
  | «variable» name => exact .variable (hreads name (List.mem_singleton_self _))
  | grouping inner ih => exact .groupingLeft (.groupingRight (ih hreads hassigns))
  | unary op token right ih => exact .unary (hoperators token) (ih hreads hassigns)
  | binary left op token right ihleft ihright =>
    refine .binary (ihleft ?_ ?_) (hoperators token) (ihright ?_ ?_)
    · exact fun x hx => hreads x (List.mem_append_left _ hx)
    · exact fun x hx => hassigns x (List.mem_append_left _ hx)
    · exact fun x hx => hreads x (List.mem_append_right _ hx)
    · exact fun x hx => hassigns x (List.mem_append_right _ hx)
  | assign name value ih =>
    refine .assign (hassigns name List.mem_cons_self) (ih ?_ ?_)
    · exact fun x hx => hreads x (List.mem_cons_of_mem _ hx)
    · exact fun x hx => hassigns x (List.mem_cons_of_mem _ hx)

/-- What must hold of the tokens of a statement, so that it is like itself. Inside its blocks any of
its names may be declared. -/
structure Matching.Fits (m : Matching) (n : Nat) (s : Stmt) : Prop where
  reads (x : Token) : x.lexeme ∈ s.names → m.reads x x
  assigns (x : Token) : x.lexeme ∈ s.assigned → m.assigns x x
  declares (x : Token) : x.lexeme ∈ s.declared → m.declares n x x
  declaresInside (x : Token) (k : Nat) : x.lexeme ∈ s.names → n < k → m.declares k x x
  operators (t : Token) : m.operators t t

/-- A part of a statement fits if its names are among those of the statement. -/
theorem Matching.Fits.part {m : Matching} {n : Nat} {s part : Stmt} (h : m.Fits n s)
    (hnames : part.names ⊆ s.names) (hassigned : part.assigned ⊆ s.assigned)
    (hdeclared : part.declared ⊆ s.declared) : m.Fits n part where
  reads x hx := h.reads x (hnames hx)
  assigns x hx := h.assigns x (hassigned hx)
  declares x hx := h.declares x (hdeclared hx)
  declaresInside x k hx := h.declaresInside x k (hnames hx)
  operators := h.operators

/-- A statement of a block is one block further inside. -/
theorem Matching.Fits.inside {m : Matching} {n : Nat} {s : Stmt} {body : List Stmt}
    (h : m.Fits n (.block body)) (hs : s ∈ body) : m.Fits (n + 1) s where
  reads x hx := h.reads x (Stmt.gather_subset_block _ _ hs hx)
  assigns x hx := h.assigns x (Stmt.gather_subset_block _ _ hs hx)
  declares x hx := h.declaresInside x (n + 1)
    (Stmt.gather_subset_block _ _ hs (s.declared_subset_names hx)) (Nat.lt_succ_self n)
  declaresInside x k hx hk := h.declaresInside x k (Stmt.gather_subset_block _ _ hs hx)
    (Nat.lt_of_succ_lt hk)
  operators := h.operators

/-- A statement is like itself if its tokens match themselves. -/
theorem Stmt.alike_self {m : Matching} {n : Nat} {s : Stmt} (h : m.Fits n s) : s.Alike m n s := by
  induction s using Stmt.induct generalizing n with
  | expression e => exact .expression (e.alike_self h.reads h.assigns h.operators)
  | print e => exact .print (e.alike_self h.reads h.assigns h.operators)
  | declare name initial =>
    have hname := h.declares name (List.mem_singleton_self _)
    cases initial with
    | none => exact .declare hname
    | some initial =>
      refine .define hname (initial.alike_self ?_ ?_ h.operators)
      · exact fun x hx => h.reads x (List.mem_append_right _ hx)
      · exact fun x hx => h.assigns x (List.mem_append_right _ hx)
  | block body ih =>
    have hbody := Stmt.Alike.block_map (f := id) fun s hs => ih s hs (h.inside hs)
    rwa [List.map_id] at hbody
  | conditional condition yes no ihyes ihno =>
    cases no with
    | none =>
      refine .conditional (condition.alike_self ?_ ?_ h.operators) (ihyes (h.part ?_ ?_ ?_))
      · exact fun x hx => h.reads x (List.mem_append_left _ hx)
      · exact fun x hx => h.assigns x (List.mem_append_left _ hx)
      · exact List.subset_append_right _ _
      · exact List.subset_append_right _ _
      · exact List.Subset.refl _
    | some no =>
      refine .alternative (condition.alike_self ?_ ?_ h.operators) (ihyes (h.part ?_ ?_ ?_))
        (ihno no rfl (h.part ?_ ?_ ?_))
      · exact fun x hx => h.reads x (List.mem_append_left _ hx)
      · exact fun x hx => h.assigns x (List.mem_append_left _ hx)
      · exact List.subset_append_of_subset_right _ (List.subset_append_left _ _)
      · exact List.subset_append_of_subset_right _ (List.subset_append_left _ _)
      · exact List.subset_append_left _ _
      · exact List.subset_append_of_subset_right _ (List.subset_append_right _ _)
      · exact List.subset_append_of_subset_right _ (List.subset_append_right _ _)
      · exact List.subset_append_right _ _

/-! ### Ends that are alike -/

section

variable {ε ε' α σ τ : Type}

/-- Two runs end with the same value, or with errors that are related; and in states that are. -/
inductive EndsAlike (errors : ε → ε' → Prop) (states : σ → τ → Prop) :
    Except ε α × σ → Except ε' α × τ → Prop where
  | ok {a : σ} {b : τ} (value : α) : states a b → EndsAlike errors states (.ok value, a) (.ok value, b)
  | error {e : ε} {e' : ε'} {a : σ} {b : τ} : errors e e' → states a b →
      EndsAlike errors states (.error e, a) (.error e', b)

theorem EndsAlike.states {errors : ε → ε' → Prop} {states : σ → τ → Prop} {r : Except ε α × σ}
    {r' : Except ε' α × τ} (h : EndsAlike errors states r r') : states r.2 r'.2 := by
  cases h with
  | ok value hstates => exact hstates
  | error _ hstates => exact hstates

/-- Where errors are related to themselves alone, the results are the same. -/
theorem EndsAlike.result_eq {errors : ε → ε → Prop} {states : σ → τ → Prop} {r : Except ε α × σ}
    {r' : Except ε α × τ} (h : EndsAlike errors states r r')
    (herrors : ∀ {e e'}, errors e e' → e = e') : r'.1 = r.1 := by
  cases h with
  | ok value _ => rfl
  | error herror _ => rw [herrors herror]

/-- Where each error and each state is related to one alone, the one end is told from the other. -/
theorem EndsAlike.eq_mapError {errors : ε → ε' → Prop} {states : σ → τ → Prop} {r : Except ε α × σ}
    {r' : Except ε' α × τ} {ofError : ε → ε'} {ofState : σ → τ} (h : EndsAlike errors states r r')
    (herrors : ∀ {e e'}, errors e e' → e' = ofError e)
    (hstates : ∀ {a b}, states a b → b = ofState a) : r' = (r.1.mapError ofError, ofState r.2) := by
  cases h with
  | ok value hab => rw [hstates hab]; rfl
  | error herror hab => rw [hstates hab, herrors herror]; rfl

theorem EndsAlike.refl (r : Except ε α × σ) : EndsAlike Eq Eq r r := by
  obtain ⟨result, state⟩ := r
  cases result with
  | ok value => exact .ok value rfl
  | error error => exact .error rfl rfl

end

/-! ### Evaluating -/

/-- The name that a fault is about, if it is about one. -/
def RuntimeFault.name? : RuntimeFault → Option String
  | .undefinedVariable name => some name
  | .uninitializedVariable name => some name
  | _ => none

/-- The fault of an operator is not about a name. -/
theorem UnaryOp.name?_eq_none {op : UnaryOp} {value : Value} {fault : RuntimeFault}
    (h : op.apply value = .error fault) : fault.name? = none := by
  unfold UnaryOp.apply at h
  split at h <;> grind [RuntimeFault.name?]

theorem BinaryOp.name?_eq_none {op : BinaryOp} {x y : Value} {fault : RuntimeFault}
    (h : op.apply x y = .error fault) : fault.name? = none := by
  unfold BinaryOp.apply at h
  split at h <;> grind [RuntimeFault.name?]

/-- What must hold of the names that match and of the scopes that are related, so that expressions
that are alike are evaluated alike. -/
structure Matching.Evaluates (m : Matching) (scopes : Scopes → Scopes → Prop)
    (errors : RuntimeError → RuntimeError → Prop) : Prop where
  get {a b : Scopes} {x x' : Token} : scopes a b → m.reads x x' →
    b.get x'.lexeme = a.get x.lexeme
  assign {a b : Scopes} {x x' : Token} (value : Value) : scopes a b → m.assigns x x' →
    (∃ a' b', a.assign x.lexeme value = .ok a' ∧ b.assign x'.lexeme value = .ok b' ∧ scopes a' b') ∨
    ∃ fault, a.assign x.lexeme value = .error fault ∧ b.assign x'.lexeme value = .error fault
  read_error {x x' : Token} (fault : NameFault) : m.reads x x' →
    errors (.ofName x fault) (.ofName x' fault)
  assign_error {x x' : Token} (fault : NameFault) : m.assigns x x' →
    errors (.ofName x fault) (.ofName x' fault)
  operator_error {t t' : Token} (fault : RuntimeFault) : fault.name? = none → m.operators t t' →
    errors ⟨t, fault⟩ ⟨t', fault⟩

section

variable {m : Matching} {scopes : Scopes → Scopes → Prop}
  {errors : RuntimeError → RuntimeError → Prop}

/-- The result of an operator, or its fault at the one token and at the other. -/
theorem endsAlike_mapError {α σ τ : Type} {states : σ → τ → Prop} {result : Except RuntimeFault α}
    {t t' : Token} {a : σ} {b : τ}
    (herror : ∀ fault, result = .error fault → errors ⟨t, fault⟩ ⟨t', fault⟩) (h : states a b) :
    EndsAlike errors states (result.mapError (.mk t), a) (result.mapError (.mk t'), b) := by
  cases result with
  | ok value => exact .ok value h
  | error fault => exact .error (herror fault rfl) h

/-- **Expressions that are alike are evaluated alike.** -/
theorem Expr.Alike.eval (hm : m.Evaluates scopes errors) {e e' : Expr} (h : e.Alike m e')
    {a b : Scopes} (hscopes : scopes a b) : EndsAlike errors scopes (e.eval a) (e'.eval b) := by
  induction h generalizing a b with
  | literal value => exact .ok value hscopes
  | @«variable» x x' hreads =>
    simp only [Expr.eval, hm.get hscopes hreads]
    cases a.get x.lexeme with
    | ok value => exact .ok value hscopes
    | error fault => exact .error (hm.read_error fault hreads) hscopes
  | @assign x x' e e' hassigns _ ih =>
    have hvalue := ih hscopes
    simp only [Expr.eval]
    generalize e.eval a = r at hvalue
    generalize e'.eval b = r' at hvalue
    cases hvalue with
    | error herror hscopes => exact .error herror hscopes
    | ok value hscopes =>
      rcases hm.assign value hscopes hassigns with ⟨a', b', ha, hb, hscopes'⟩ | ⟨fault, ha, hb⟩
      · simp only [ha, hb]
        exact .ok value hscopes'
      · simp only [ha, hb]
        exact .error (hm.assign_error fault hassigns) hscopes
  | @unary op t t' e e' hoperators _ ih =>
    have hright := ih hscopes
    simp only [Expr.eval]
    generalize e.eval a = r at hright
    generalize e'.eval b = r' at hright
    cases hright with
    | error herror hscopes => exact .error herror hscopes
    | ok value hscopes =>
      refine endsAlike_mapError (fun fault hfault => ?_) hscopes
      exact hm.operator_error fault (UnaryOp.name?_eq_none hfault) hoperators
  | @binary op t t' left left' right right' _ hoperators _ ihleft ihright =>
    have hleft := ihleft hscopes
    simp only [Expr.eval]
    generalize left.eval a = r at hleft
    generalize left'.eval b = r' at hleft
    cases hleft with
    | error herror hscopes => exact .error herror hscopes
    | @ok mid mid' x hscopes =>
      have hright := ihright hscopes
      dsimp only
      generalize right.eval mid = r at hright
      generalize right'.eval mid' = r' at hright
      cases hright with
      | error herror hscopes => exact .error herror hscopes
      | ok y hscopes =>
        refine endsAlike_mapError (fun fault hfault => ?_) hscopes
        exact hm.operator_error fault (BinaryOp.name?_eq_none hfault) hoperators
  | groupingLeft _ ih => exact ih hscopes
  | groupingRight _ ih => exact ih hscopes

end

/-! ### Running -/

/-- Errors of runs are related if those of the program are; an output gives the same reason. -/
inductive ExecutionError.Alike (errors : RuntimeError → RuntimeError → Prop) :
    ExecutionError → ExecutionError → Prop where
  | runtime {e e' : RuntimeError} : errors e e' → Alike errors (.runtime e) (.runtime e')
  | output (reason : String) : Alike errors (.output reason) (.output reason)

theorem ExecutionError.Alike.eq {e e' : ExecutionError} (h : e.Alike Eq e') : e = e' := by
  cases h with
  | runtime herror => rw [herror]
  | output reason => rfl

variable {σ τ : Type}

/-- The scopes are related, and so are the outputs. -/
structure RunState.Alike (scopes : Scopes → Scopes → Prop) (output : σ → τ → Prop) (a : RunState σ)
    (b : RunState τ) : Prop where
  scopes : scopes a.scopes b.scopes
  output : output a.output b.output

/-- A run after something was written. -/
def RunState.wrote (state : RunState σ) (written : Except String Unit × σ) :
    Except ExecutionError Unit × RunState σ :=
  (written.1.mapError .output, { state with output := written.2 })

theorem RunState.wrote_alike {scopes : Scopes → Scopes → Prop} {output : σ → τ → Prop}
    {errors : RuntimeError → RuntimeError → Prop} {a : RunState σ} {b : RunState τ}
    {r : Except String Unit × σ} {r' : Except String Unit × τ} (h : EndsAlike Eq output r r')
    (hscopes : scopes a.scopes b.scopes) :
    EndsAlike (ExecutionError.Alike errors) (RunState.Alike scopes output) (a.wrote r)
      (b.wrote r') := by
  cases h with
  | ok value houtput => exact .ok () ⟨hscopes, houtput⟩
  | error herror houtput =>
    subst herror
    exact .error (.output _) ⟨hscopes, houtput⟩

theorem RunState.Alike.eq {a b : RunState σ} (h : RunState.Alike Eq Eq a b) : a = b := by
  obtain ⟨hscopes, houtput⟩ := h
  cases a
  cases b
  simp_all

variable [Sink σ] [Sink τ]

/-- A line that is written with echo on, and kept back with echo off. -/
def Sink.echo (echo : Bool) (line : String) (output : σ) : Except String Unit × σ :=
  if echo then Sink.writeLine line output else (.ok (), output)

/-- What must hold of names, scopes and outputs, so that statements that are alike run alike. The
scopes are related as they are inside so many blocks. -/
structure Matching.Runs (m : Matching) (echo echo' : Bool) (scopes : Nat → Scopes → Scopes → Prop)
    (output : σ → τ → Prop) (errors : RuntimeError → RuntimeError → Prop) : Prop where
  evaluates (n : Nat) : m.Evaluates (scopes n) errors
  bind {n : Nat} {a b : Scopes} {x x' : Token} (binding : Binding) : scopes n a b →
    m.declares n x x' → scopes n (a.bind x.lexeme binding) (b.bind x'.lexeme binding)
  push {n : Nat} {a b : Scopes} : scopes n a b → scopes (n + 1) a.push b.push
  pop {n : Nat} {a b : Scopes} : scopes (n + 1) a b → scopes n a.pop b.pop
  write {o : σ} {o' : τ} (line : String) : output o o' →
    EndsAlike Eq output (Sink.writeLine line o) (Sink.writeLine line o')
  echoes {o : σ} {o' : τ} (line : String) : output o o' →
    EndsAlike Eq output (Sink.echo echo line o) (Sink.echo echo' line o')

theorem RunState.echo_eq (echo : Bool) (state : RunState σ) (value : Value) :
    (if echo then state.write value else (.ok (), state)) =
      state.wrote (Sink.echo echo value.display state.output) := by
  cases echo <;> rfl

section

variable {m : Matching} {echo echo' : Bool} {scopes : Nat → Scopes → Scopes → Prop}
  {output : σ → τ → Prop} {errors : RuntimeError → RuntimeError → Prop} {n : Nat}

theorem RunState.Alike.eval (hm : m.Runs echo echo' scopes output errors) {e e' : Expr}
    (h : e.Alike m e') {a : RunState σ} {b : RunState τ}
    (hstates : RunState.Alike (scopes n) output a b) :
    EndsAlike errors (RunState.Alike (scopes n) output) (a.eval e) (b.eval e') := by
  have hvalue := h.eval (hm.evaluates n) hstates.scopes
  simp only [RunState.eval]
  generalize e.eval a.scopes = r at hvalue
  generalize e'.eval b.scopes = r' at hvalue
  cases hvalue with
  | ok value hscopes => exact .ok value ⟨hscopes, hstates.output⟩
  | error herror hscopes => exact .error herror ⟨hscopes, hstates.output⟩

omit [Sink σ] [Sink τ] in
/-- Runs that begin with evaluating end alike, if they go on alike with the value. (The matches stand
in front of the hypotheses: behind them they would be taken up into the motives.) -/
theorem EndsAlike.evaluated {states : RunState σ → RunState τ → Prop}
    {r : Except RuntimeError Value × RunState σ} {r' : Except RuntimeError Value × RunState τ}
    {next : Value → RunState σ → Except ExecutionError Unit × RunState σ}
    {next' : Value → RunState τ → Except ExecutionError Unit × RunState τ} :
    EndsAlike errors states r r' →
    (∀ value a b, states a b →
      EndsAlike (ExecutionError.Alike errors) states (next value a) (next' value b)) →
    EndsAlike (ExecutionError.Alike errors) states
      (match r with
        | (.error e, state) => (.error (.runtime e), state)
        | (.ok value, state) => next value state)
      (match r' with
        | (.error e, state) => (.error (.runtime e), state)
        | (.ok value, state) => next' value state) := by
  intro h hnext
  cases h with
  | ok value hstates => exact hnext value _ _ hstates
  | error herror hstates => exact .error (.runtime herror) hstates

/-- Statements that are alike, one by one, run alike up to the first that stops the run. -/
theorem Stmt.execAll_alike {parts : List (Stmt × Stmt)}
    (hparts : ∀ part ∈ parts, ∀ (a : RunState σ) (b : RunState τ),
      RunState.Alike (scopes n) output a b →
      EndsAlike (ExecutionError.Alike errors) (RunState.Alike (scopes n) output)
        (part.1.exec echo a) (part.2.exec echo' b))
    {a : RunState σ} {b : RunState τ} (hstates : RunState.Alike (scopes n) output a b) :
    EndsAlike (ExecutionError.Alike errors) (RunState.Alike (scopes n) output)
      (Stmt.execAll echo (parts.map Prod.fst) a) (Stmt.execAll echo' (parts.map Prod.snd) b) := by
  induction parts generalizing a b with
  | nil => exact .ok () hstates
  | cons part parts ih =>
    obtain ⟨hpart, hparts⟩ := List.forall_mem_cons.mp hparts
    have hfirst := hpart a b hstates
    simp only [List.map_cons, Stmt.execAll]
    generalize part.1.exec echo a = r at hfirst
    generalize part.2.exec echo' b = r' at hfirst
    cases hfirst with
    | error herror hstates => exact .error herror hstates
    | ok done hstates => exact ih hparts hstates

/-- **Statements that are alike run alike**: to ends that are alike, in states that are related as
those were in which they began. -/
theorem Stmt.Alike.exec (hm : m.Runs echo echo' scopes output errors) {s s' : Stmt}
    (h : s.Alike m n s') {a : RunState σ} {b : RunState τ}
    (hstates : RunState.Alike (scopes n) output a b) :
    EndsAlike (ExecutionError.Alike errors) (RunState.Alike (scopes n) output) (s.exec echo a)
      (s'.exec echo' b) := by
  induction h generalizing a b with
  | expression hvalue =>
    simp only [Stmt.exec, RunState.echo_eq]
    refine (hstates.eval hm hvalue).evaluated fun value a b hstates => ?_
    exact RunState.wrote_alike (hm.echoes value.display hstates.output) hstates.scopes
  | print hvalue =>
    simp only [Stmt.exec]
    refine (hstates.eval hm hvalue).evaluated fun value a b hstates => ?_
    exact RunState.wrote_alike (hm.write value.display hstates.output) hstates.scopes
  | declare hdeclares => exact .ok () ⟨hm.bind none hstates.scopes hdeclares, hstates.output⟩
  | define hdeclares hvalue =>
    simp only [Stmt.exec]
    refine (hstates.eval hm hvalue).evaluated fun value a b hstates => ?_
    exact .ok () ⟨hm.bind (some value) hstates.scopes hdeclares, hstates.output⟩
  | @block n parts _ ih =>
    have hopened : RunState.Alike (scopes (n + 1)) output { a with scopes := a.scopes.push }
        { b with scopes := b.scopes.push } := ⟨hm.push hstates.scopes, hstates.output⟩
    have hends := Stmt.execAll_alike (fun part hpart a b => @ih part hpart a b) hopened
    simp only [Stmt.exec]
    generalize Stmt.execAll echo _ { a with scopes := a.scopes.push } = r at hends
    generalize Stmt.execAll echo' _ { b with scopes := b.scopes.push } = r' at hends
    cases hends with
    | error herror hstates => exact .error herror ⟨hm.pop hstates.scopes, hstates.output⟩
    | ok done hstates => exact .ok done ⟨hm.pop hstates.scopes, hstates.output⟩
  | conditional hcondition _ ih =>
    simp only [Stmt.exec]
    refine (hstates.eval hm hcondition).evaluated fun value a b hstates => ?_
    split
    · exact ih hstates
    · exact .ok () hstates
  | alternative hcondition _ _ ihyes ihno =>
    simp only [Stmt.exec]
    refine (hstates.eval hm hcondition).evaluated fun value a b hstates => ?_
    split
    · exact ihyes hstates
    · exact ihno hstates

/-- Programs run alike if one holds what the other does, changed to what is alike. -/
theorem Stmt.Alike.execAll_map (hm : m.Runs echo echo' scopes output errors) {body : List Stmt}
    {f : Stmt → Stmt} (h : ∀ s ∈ body, s.Alike m n (f s)) {a : RunState σ} {b : RunState τ}
    (hstates : RunState.Alike (scopes n) output a b) :
    EndsAlike (ExecutionError.Alike errors) (RunState.Alike (scopes n) output)
      (Stmt.execAll echo body a) (Stmt.execAll echo' (body.map f) b) := by
  obtain ⟨parts, hparts, rfl, hmap⟩ := Stmt.alike_parts h
  rw [← hmap]
  exact Stmt.execAll_alike (fun part hpart a b => (hparts part hpart).exec hm) hstates

end

/-! ### The same scopes -/

/-- In the same scopes, names that are spelled alike are read and assigned alike. -/
theorem Matching.evaluates_of_lexemes {m : Matching} {errors : RuntimeError → RuntimeError → Prop}
    (reads : ∀ x x', m.reads x x' → x'.lexeme = x.lexeme)
    (assigns : ∀ x x', m.assigns x x' → x'.lexeme = x.lexeme)
    (read_error : ∀ x x' fault, m.reads x x' → errors (.ofName x fault) (.ofName x' fault))
    (assign_error : ∀ x x' fault, m.assigns x x' → errors (.ofName x fault) (.ofName x' fault))
    (operator_error : ∀ t t' fault, m.operators t t' → errors ⟨t, fault⟩ ⟨t', fault⟩) :
    m.Evaluates Eq errors where
  get hscopes hname := by rw [hscopes, reads _ _ hname]
  assign {a b x x'} value hscopes hname := by
    subst hscopes
    rw [assigns x x' hname]
    cases a.assign x.lexeme value with
    | ok assigned => exact .inl ⟨assigned, assigned, rfl, rfl, rfl⟩
    | error fault => exact .inr ⟨fault, rfl, rfl⟩
  read_error fault := read_error _ _ fault
  assign_error fault := assign_error _ _ fault
  operator_error fault _ := operator_error _ _ fault

/-- In the same scopes, names that are spelled alike are declared alike. -/
theorem Matching.runs_of_lexemes {m : Matching} {errors : RuntimeError → RuntimeError → Prop}
    {echo echo' : Bool} {output : σ → τ → Prop} (hm : m.Evaluates Eq errors)
    (declares : ∀ n x x', m.declares n x x' → x'.lexeme = x.lexeme)
    (write : ∀ o o' line, output o o' →
      EndsAlike Eq output (Sink.writeLine line o) (Sink.writeLine line o'))
    (echoes : ∀ o o' line, output o o' →
      EndsAlike Eq output (Sink.echo echo line o) (Sink.echo echo' line o')) :
    m.Runs echo echo' (fun _ => Eq) output errors where
  evaluates _ := hm
  bind binding hscopes hname := by rw [hscopes, declares _ _ _ hname]
  push hscopes := by rw [hscopes]
  pop hscopes := by rw [hscopes]
  write := write _ _
  echoes := echoes _ _

/-- Only a token itself matches it. -/
def Matching.same : Matching := ⟨Eq, Eq, fun _ => Eq, Eq⟩

theorem Stmt.alike_same (n : Nat) (s : Stmt) : s.Alike .same n s :=
  alike_self ⟨fun _ _ => rfl, fun _ _ => rfl, fun _ _ => rfl, fun _ _ _ _ => rfl, fun _ => rfl⟩

theorem Matching.same_evaluates : Matching.same.Evaluates Eq Eq :=
  evaluates_of_lexemes (fun _ _ h => congrArg Token.lexeme h.symm)
    (fun _ _ h => congrArg Token.lexeme h.symm) (fun _ _ _ h => by rw [h])
    (fun _ _ _ h => by rw [h]) (fun _ _ _ h => by rw [h])

end LoxLang
