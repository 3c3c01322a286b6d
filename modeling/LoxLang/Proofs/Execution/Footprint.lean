import LoxLang.Proofs.Execution.SideBySide

/-!
# What a statement touches and what it depends on

A statement changes no binding of a name to which it does not assign and which it does not declare; and
where two states agree on the names that occur in it, it does the same, to states that agree on those
names again. Both hold however the run ends (`Stmt.exec_footprint`).
-/

namespace LoxLang

variable {σ : Type} [Sink σ]

/-! ### What is touched -/

/-- Tokens match themselves, if they do not have one assign to the name, or declare it outside all
blocks. -/
def Matching.sparing (name : String) : Matching where
  reads := Eq
  assigns x x' := x = x' ∧ x.lexeme ≠ name
  declares n x x' := x = x' ∧ (n = 0 → x.lexeme ≠ name)
  operators := Eq

/-- The same scopes, of which all but the first so many bind the name as given. -/
def Scopes.Spared (name : String) (kept : List (Option Binding)) (n : Nat) (a b : Scopes) : Prop :=
  a = b ∧ (a.bindingsOf name).drop n = kept

namespace Scopes.Spared

variable {name : String} {kept : List (Option Binding)} {n : Nat} {a b : Scopes}

theorem push (h : Spared name kept n a b) : Spared name kept (n + 1) a.push b.push := by
  obtain ⟨rfl, hkept⟩ := h
  exact ⟨rfl, hkept⟩

/-- There is a scope to be closed, as there is one around it. -/
theorem pop (hkept : kept ≠ []) (h : Spared name kept (n + 1) a b) :
    Spared name kept n a.pop b.pop := by
  obtain ⟨rfl, rfl⟩ := h
  have hdepth : 1 < a.depth := by
    have hlength := List.length_pos_iff.mpr hkept
    rw [List.length_drop, length_bindingsOf] at hlength
    omega
  exact ⟨rfl, by rw [bindingsOf_pop hdepth, List.drop_tail]⟩

theorem bind (h : Spared name kept n a b) {other : String} (hother : n = 0 → other ≠ name)
    (binding : Binding) : Spared name kept n (a.bind other binding) (b.bind other binding) := by
  obtain ⟨rfl, rfl⟩ := h
  refine ⟨rfl, ?_⟩
  cases n with
  | zero => rw [bindingsOf_bind_of_ne (hother rfl).symm]
  | succ n => rw [← List.drop_tail, ← List.drop_tail, tail_bindingsOf_bind]

end Scopes.Spared

theorem Matching.sparing_evaluates (name : String) (kept : List (Option Binding)) (n : Nat) :
    (Matching.sparing name).Evaluates (Scopes.Spared name kept n) Eq where
  get h hname := by rw [h.1, hname]
  assign {a b x x'} value h hname := by
    obtain ⟨rfl, hne⟩ : x = x' ∧ x.lexeme ≠ name := hname
    obtain ⟨rfl, hkept⟩ := h
    rcases a.assign_bindings x.lexeme value with ⟨assigned, hassign, -, -, hothers⟩ | ⟨hassign, -⟩
    · exact .inl ⟨assigned, assigned, hassign, hassign, rfl, by rw [hothers name hne.symm, hkept]⟩
    · exact .inr ⟨_, hassign, hassign⟩
  read_error fault hname := by rw [hname]
  assign_error fault hname := by rw [hname.1]
  operator_error fault _ htoken := by rw [htoken]

theorem Matching.sparing_runs (name : String) {kept : List (Option Binding)} (hkept : kept ≠ [])
    (echo : Bool) :
    (Matching.sparing name).Runs echo echo (Scopes.Spared name kept) (@Eq σ) Eq where
  evaluates := sparing_evaluates name kept
  bind binding h hname := by
    obtain ⟨rfl, hne⟩ := hname
    exact h.bind hne binding
  push h := h.push
  pop h := h.pop hkept
  write line h := h ▸ EndsAlike.refl _
  echoes line h := h ▸ EndsAlike.refl _

/-- **A statement keeps the bindings of a name**, in every scope, to which it does not assign and
which it does not declare. -/
theorem Stmt.exec_spares {s : Stmt} {name : String} (hassigned : name ∉ s.assigned)
    (hdeclared : name ∉ s.declared) (echo : Bool) (state : RunState σ) :
    (s.exec echo state).2.scopes.bindingsOf name = state.scopes.bindingsOf name := by
  have hfits : (Matching.sparing name).Fits 0 s :=
    { reads := fun _ _ => rfl
      assigns := fun x hx => ⟨rfl, fun h => hassigned (h ▸ hx)⟩
      declares := fun x hx => ⟨rfl, fun _ h => hdeclared (h ▸ hx)⟩
      declaresInside := fun x k _ hk => ⟨rfl, fun h => absurd hk (by omega)⟩
      operators := fun _ => rfl }
  have hkept : state.scopes.bindingsOf name ≠ [] := List.cons_ne_nil _ _
  have hends := (Stmt.alike_self hfits).exec (Matching.sparing_runs name hkept echo)
    (a := state) (b := state) ⟨⟨rfl, rfl⟩, rfl⟩
  exact hends.states.scopes.2

/-- Tokens match themselves, but nothing is assigned. -/
def Matching.readOnly : Matching := ⟨Eq, fun _ _ => False, fun _ => Eq, Eq⟩

theorem Matching.readOnly_evaluates (start : Scopes) :
    Matching.readOnly.Evaluates (fun a b => a = start ∧ b = start) Eq where
  get h hname := by rw [h.1, h.2, hname]
  assign _ _ hname := hname.elim
  read_error fault hname := by rw [hname]
  assign_error _ hname := hname.elim
  operator_error fault _ htoken := by rw [htoken]

/-- **Evaluating what does not assign changes nothing.** -/
theorem Expr.eval_of_assigned_eq_nil {e : Expr} (h : e.assigned = []) (scopes : Scopes) :
    (e.eval scopes).2 = scopes := by
  have hsame : e.Alike .readOnly e :=
    e.alike_self (fun _ _ => rfl) (fun x hx => absurd hx (by simp [h])) (fun _ => rfl)
  exact (hsame.eval (Matching.readOnly_evaluates scopes) ⟨rfl, rfl⟩).states.1

/-! ### What is depended on -/

/-- As many scopes, which bind the names alike, scope by scope. -/
structure Scopes.AgreeOn (names : List String) (a b : Scopes) : Prop where
  depth : b.depth = a.depth
  bindings : ∀ name ∈ names, b.bindingsOf name = a.bindingsOf name

namespace Scopes.AgreeOn

variable {names : List String} {a b : Scopes}

theorem push (h : AgreeOn names a b) : AgreeOn names a.push b.push :=
  ⟨congrArg (· + 1) h.depth, fun name hname => congrArg (none :: ·) (h.bindings name hname)⟩

/-- Either both have a scope to be closed or neither has. -/
theorem pop (h : AgreeOn names a b) : AgreeOn names a.pop b.pop := by
  have hdepth := h.depth
  rcases Nat.lt_or_ge 1 a.depth with hlt | hle
  · refine ⟨by rw [depth_pop hlt, depth_pop (hdepth ▸ hlt), hdepth], fun name hname => ?_⟩
    rw [bindingsOf_pop hlt, bindingsOf_pop (hdepth ▸ hlt), h.bindings name hname]
  · rwa [pop_of_depth hle, pop_of_depth (hdepth ▸ hle)]

theorem bind (h : AgreeOn names a b) (name : String) (binding : Binding) :
    AgreeOn names (a.bind name binding) (b.bind name binding) := by
  refine ⟨h.depth, fun other hother => ?_⟩
  by_cases hname : other = name
  · subst hname
    rw [bindingsOf_bind_self, bindingsOf_bind_self, h.bindings other hother]
  · rw [bindingsOf_bind_of_ne hname, bindingsOf_bind_of_ne hname, h.bindings other hother]

/-- Assigning to one of the names does the same. -/
theorem assign (h : AgreeOn names a b) {name : String} (hname : name ∈ names) (value : Value) :
    (∃ a' b', a.assign name value = .ok a' ∧ b.assign name value = .ok b' ∧ AgreeOn names a' b') ∨
    ∃ fault, a.assign name value = .error fault ∧ b.assign name value = .error fault := by
  have ha := a.assign_bindings name value
  have hb := b.assign_bindings name value
  rw [h.bindings name hname] at hb
  rcases ha with ⟨a', hassign, hdepth, hbindings, hothers⟩ | ⟨hassign, hbindings⟩
  · rcases hb with ⟨b', hassign', hdepth', hbindings', hothers'⟩ | ⟨-, hbindings'⟩
    · refine .inl ⟨a', b', hassign, hassign', by rw [hdepth, hdepth', h.depth], ?_⟩
      intro other hother
      by_cases hsame : other = name
      · subst hsame
        exact Option.some.inj (hbindings'.symm.trans hbindings)
      · rw [hothers other hsame, hothers' other hsame, h.bindings other hother]
    · exact absurd (hbindings'.symm.trans hbindings) (by simp)
  · rcases hb with ⟨b', -, -, hbindings', -⟩ | ⟨hassign', -⟩
    · exact absurd (hbindings'.symm.trans hbindings) (by simp)
    · exact .inr ⟨_, hassign, hassign'⟩

end Scopes.AgreeOn

/-- Tokens match themselves, if those for names have one of the names. -/
def Matching.within (names : List String) : Matching where
  reads x x' := x = x' ∧ x.lexeme ∈ names
  assigns x x' := x = x' ∧ x.lexeme ∈ names
  declares _ := Eq
  operators := Eq

theorem Matching.within_evaluates (names : List String) :
    (Matching.within names).Evaluates (Scopes.AgreeOn names) Eq where
  get h hname := by
    obtain ⟨rfl, hmem⟩ := hname
    exact Scopes.get_congr (h.bindings _ hmem)
  assign value h hname := by
    obtain ⟨rfl, hmem⟩ := hname
    exact h.assign hmem value
  read_error fault hname := by rw [hname.1]
  assign_error fault hname := by rw [hname.1]
  operator_error fault _ htoken := by rw [htoken]

theorem Matching.within_runs (names : List String) (echo : Bool) :
    (Matching.within names).Runs echo echo (fun _ => Scopes.AgreeOn names) (@Eq σ) Eq where
  evaluates _ := within_evaluates names
  bind binding h hname := by
    obtain rfl := hname
    exact h.bind _ binding
  push h := h.push
  pop h := h.pop
  write line h := h ▸ EndsAlike.refl _
  echoes line h := h ▸ EndsAlike.refl _

/-- **A statement depends on the names in it alone**: where they are bound alike, it gives the same
result and the same output, and then they are bound alike again. -/
theorem Stmt.exec_agreeOn (s : Stmt) (echo : Bool) {a b : RunState σ}
    (h : a.scopes.AgreeOn s.names b.scopes) (houtput : a.output = b.output) :
    (s.exec echo b).1 = (s.exec echo a).1 ∧
    (s.exec echo b).2.output = (s.exec echo a).2.output ∧
    (s.exec echo a).2.scopes.AgreeOn s.names (s.exec echo b).2.scopes := by
  have hfits : (Matching.within s.names).Fits 0 s :=
    { reads := fun x hx => ⟨rfl, hx⟩
      assigns := fun x hx => ⟨rfl, s.assigned_subset_names hx⟩
      declares := fun _ _ => rfl
      declaresInside := fun _ _ _ _ => rfl
      operators := fun _ => rfl }
  have hends := (Stmt.alike_self hfits).exec (Matching.within_runs s.names echo) ⟨h, houtput⟩
  exact ⟨hends.result_eq ExecutionError.Alike.eq, hends.states.output.symm, hends.states.scopes⟩

/-! ### Both -/

/-- **A statement touches and depends on only the names in it**, however its run ends. In every scope
the bindings of a name stay as they are, unless the statement assigns to it or declares it outside
blocks; an evaluation without an assignment changes nothing. And in two states with as many scopes,
which bind the names of the statement alike, it gives the same result and the same output, and leaves
states which do so again. -/
theorem Stmt.exec_footprint (s : Stmt) (echo : Bool) (state : RunState σ) :
    (∀ name, name ∉ s.assigned → name ∉ s.declared →
      (s.exec echo state).2.scopes.bindingsOf name = state.scopes.bindingsOf name) ∧
    (∀ (e : Expr) (scopes : Scopes), e.assigned = [] → (e.eval scopes).2 = scopes) ∧
    (∀ other : RunState σ, state.scopes.AgreeOn s.names other.scopes → state.output = other.output →
      (s.exec echo other).1 = (s.exec echo state).1 ∧
      (s.exec echo other).2.output = (s.exec echo state).2.output ∧
      (s.exec echo state).2.scopes.AgreeOn s.names (s.exec echo other).2.scopes) :=
  ⟨fun _ hassigned hdeclared => Stmt.exec_spares hassigned hdeclared echo state,
    fun _ scopes h => Expr.eval_of_assigned_eq_nil h scopes,
    fun _ h houtput => Stmt.exec_agreeOn s echo h houtput⟩

/-- An assignment in a condition, and in a block one to a name that is declared there. -/
def hiddenAssignments : Stmt :=
  let a : Token := ⟨.identifier, "a", none, 1⟩
  let b : Token := ⟨.identifier, "b", none, 1⟩
  .conditional (.assign b (.literal (.boolean true)))
    (.block [.declare a none, .expression (.assign a (.variable b))]) none

/-- A third name keeps its binding, whatever it is, and it may be missing: the run is the same. -/
theorem Stmt.exec_footprint_hiddenAssignments :
    let first : RunState Transcript :=
      ⟨⟨⟨[("a", none), ("b", none), ("c", none)]⟩, []⟩, .unlimited⟩
    let other : RunState Transcript := ⟨⟨⟨[("b", none), ("a", none)]⟩, []⟩, .unlimited⟩
    let c : Expr := .variable ⟨.identifier, "c", none, 1⟩
    ("c" ∉ hiddenAssignments.assigned ∧ "c" ∉ hiddenAssignments.declared ∧
      (hiddenAssignments.exec false first).2.scopes.bindingsOf "c" = [some none]) ∧
    (c.assigned = [] ∧ (c.eval first.scopes).2 = first.scopes) ∧
    first.scopes.AgreeOn hiddenAssignments.names other.scopes ∧
    (hiddenAssignments.exec false other).1 = .ok () ∧
    (hiddenAssignments.exec false other).2.scopes.bindingsOf "b" = [some (some (.boolean true))] := by
  intro first other c
  obtain ⟨hwrite, hread, hdepends⟩ := hiddenAssignments.exec_footprint false first
  have hagree : first.scopes.AgreeOn hiddenAssignments.names other.scopes := ⟨rfl, by decide⟩
  obtain ⟨hresult, -, hafter⟩ := hdepends other hagree rfl
  refine ⟨⟨by decide, by decide, hwrite "c" (by decide) (by decide)⟩, ⟨rfl, hread c _ rfl⟩, hagree,
    hresult.trans (by decide +kernel), ?_⟩
  exact (hafter.bindings "b" (by decide)).trans (by decide +kernel)

end LoxLang
