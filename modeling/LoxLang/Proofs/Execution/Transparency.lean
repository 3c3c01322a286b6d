import LoxLang.Proofs.Execution.Frame
import LoxLang.Proofs.Execution.SideBySide

/-!
# Blocks that declare nothing

A block opens a scope of its own. If none of its statements may declare a name there, that scope stays
empty, and an empty scope is looked through: names are found, and assigned to, in the scopes around it.
So the block does what its statements do without it (`Stmt.exec_block_eq_execAll`).

The two runs go side by side. Inside the blocks of the block, their scopes differ by the empty scope,
which stands somewhere in the middle (`Scope.Padded`).
-/

namespace LoxLang

/-! ### An empty scope in the middle -/

/-- The scopes of the first list are those of the second and an empty one, which stands behind so many
of them and in front of at least one. -/
inductive Scope.Padded : Nat → List Scope → List Scope → Prop where
  | here {scopes : List Scope} : scopes ≠ [] → Padded 0 (.empty :: scopes) scopes
  | inside {n : Nat} (scope : Scope) {a b : List Scope} : Padded n a b →
      Padded (n + 1) (scope :: a) (scope :: b)

namespace Scope.Padded

variable {n : Nat} {a b : List Scope}

theorem left_ne_nil (h : Padded n a b) : a ≠ [] := by
  cases h with
  | here _ => exact List.cons_ne_nil _ _
  | inside _ _ => exact List.cons_ne_nil _ _

theorem right_ne_nil (h : Padded n a b) : b ≠ [] := by
  cases h with
  | here hscopes => exact hscopes
  | inside _ _ => exact List.cons_ne_nil _ _

/-- The empty scope is looked through. -/
theorem findSome?_eq (h : Padded n a b) (name : String) :
    a.findSome? (·.find? name) = b.findSome? (·.find? name) := by
  induction h with
  | here _ => rw [List.findSome?_cons, Scope.find?_empty]
  | inside scope _ ih => rw [List.findSome?_cons, List.findSome?_cons, ih]

/-- An assignment passes the empty scope, or does not get so far. -/
theorem assignOuter (h : Padded n a b) (name : String) (value : Value) :
    (∃ a' b', Scopes.assignOuter name value a = some a' ∧
      Scopes.assignOuter name value b = some b' ∧ Padded n a' b') ∨
    Scopes.assignOuter name value a = none ∧ Scopes.assignOuter name value b = none := by
  induction h with
  | @here scopes hscopes =>
    cases hassign : Scopes.assignOuter name value scopes with
    | none => exact .inr ⟨by simp [Scopes.assignOuter, hassign], rfl⟩
    | some assigned =>
      have hassigned : assigned ≠ [] := by
        have hlength := (Scopes.assignOuter_keeps hassign).length_eq
        exact fun hnil => hscopes (List.length_eq_zero_iff.mp (by rw [← hlength, hnil]; rfl))
      exact .inl ⟨_, assigned, by simp [Scopes.assignOuter, hassign], rfl, .here hassigned⟩
  | @inside n scope a b h ih =>
    by_cases hbound : (scope.find? name).isSome = true
    · refine .inl ⟨_, _, by rw [Scopes.assignOuter, if_pos hbound],
        by rw [Scopes.assignOuter, if_pos hbound], .inside _ h⟩
    · rcases ih with ⟨a', b', ha, hb, hpadded⟩ | ⟨ha, hb⟩
      · exact .inl ⟨scope :: a', scope :: b', by simp [Scopes.assignOuter, hbound, ha],
          by simp [Scopes.assignOuter, hbound, hb], .inside scope hpadded⟩
      · exact .inr ⟨by simp [Scopes.assignOuter, hbound, ha],
          by simp [Scopes.assignOuter, hbound, hb]⟩

end Scope.Padded

/-- The same of all open scopes. -/
def Scopes.Padded (n : Nat) (a b : Scopes) : Prop := Scope.Padded n a.toList b.toList

namespace Scopes.Padded

variable {n : Nat} {a b : Scopes}

theorem get_eq (h : Padded n a b) (name : String) : a.get name = b.get name := by
  have hfind : a.find? name = b.find? name := h.findSome?_eq name
  rw [get, get, hfind]

theorem assign (h : Padded n a b) (name : String) (value : Value) :
    (∃ a' b', a.assign name value = .ok a' ∧ b.assign name value = .ok b' ∧ Padded n a' b') ∨
    ∃ fault, a.assign name value = .error fault ∧ b.assign name value = .error fault := by
  have hassign := Scope.Padded.assignOuter h name value
  rcases a.assign_eq name value with ⟨a', ha, hassigned⟩ | ⟨ha, hrefused⟩
  · rcases b.assign_eq name value with ⟨b', hb, hassigned'⟩ | ⟨hb, -⟩
    · simp only [ha, hb, Option.some.injEq, reduceCtorEq, and_self, or_false] at hassign
      obtain ⟨_, _, rfl, rfl, hpadded⟩ := hassign
      exact .inl ⟨a', b', hassigned, hassigned', hpadded⟩
    · simp [ha, hb] at hassign
  · rcases b.assign_eq name value with ⟨b', hb, -⟩ | ⟨hb, hrefused'⟩
    · simp [ha, hb] at hassign
    · exact .inr ⟨_, hrefused, hrefused'⟩

theorem push (h : Padded n a b) : Padded (n + 1) a.push b.push := .inside .empty h

/-- The scope that is closed is inside the empty one. -/
theorem pop (h : Padded (n + 1) a b) : Padded n a.pop b.pop := by
  obtain ⟨current, enclosing⟩ := a
  obtain ⟨current', enclosing'⟩ := b
  cases h with
  | inside _ h =>
    rw [Padded, toList_pop h.left_ne_nil, toList_pop h.right_ne_nil]
    exact h

/-- A name is bound inside the empty scope, not in it. -/
theorem bind (h : Padded n a b) (hn : n ≠ 0) (name : String) (binding : Binding) :
    Padded n (a.bind name binding) (b.bind name binding) := by
  obtain ⟨current, enclosing⟩ := a
  obtain ⟨current', enclosing'⟩ := b
  cases h with
  | here _ => exact absurd rfl hn
  | inside _ h => exact .inside _ h

/-- Closing the empty scope leaves those around it. -/
theorem pop_eq (h : Padded 0 a b) : a.pop = b := by
  obtain ⟨current, enclosing⟩ := a
  obtain ⟨current', enclosing'⟩ := b
  cases h with
  | here _ => rfl

end Scopes.Padded

/-! ### Runs beside each other -/

/-- Tokens match themselves, those of declarations inside at least one block. -/
def Matching.insideBlocks : Matching := ⟨Eq, Eq, fun n x x' => x = x' ∧ n ≠ 0, Eq⟩

theorem Matching.insideBlocks_evaluates (n : Nat) :
    Matching.insideBlocks.Evaluates (Scopes.Padded n) Eq where
  get {a b x x'} h hname := by
    obtain rfl : x = x' := hname
    exact (h.get_eq _).symm
  assign {a b x x'} value h hname := by
    obtain rfl : x = x' := hname
    exact h.assign _ value
  read_error fault hname := by rw [hname]
  assign_error fault hname := by rw [hname]
  operator_error fault _ htoken := by rw [htoken]

variable {σ : Type} [Sink σ]

theorem Matching.insideBlocks_runs (echo : Bool) :
    Matching.insideBlocks.Runs echo echo Scopes.Padded (@Eq σ) Eq where
  evaluates := insideBlocks_evaluates
  bind binding h hname := by
    obtain ⟨rfl, hn⟩ := hname
    exact h.bind hn _ binding
  push h := h.push
  pop h := h.pop
  write line h := h ▸ EndsAlike.refl _
  echoes line h := h ▸ EndsAlike.refl _

/-- What declares nothing outside blocks is like itself. -/
theorem Stmt.alike_insideBlocks {s : Stmt} (h : s.declared = []) : s.Alike .insideBlocks 0 s := by
  refine Stmt.alike_self ⟨fun _ _ => rfl, fun _ _ => rfl, fun x hx => ?_, fun x k _ hk => ?_,
    fun _ => rfl⟩
  · rw [h] at hx
    exact absurd hx List.not_mem_nil
  · exact ⟨rfl, Nat.ne_of_gt hk⟩

/-- **A block that declares nothing is transparent**: where no declaration may be run in its own scope,
it gives the result, the output and the scopes that its statements give one after the other, up to the
first that stops the run, in the scopes around it. -/
theorem Stmt.exec_block_eq_execAll {body : List Stmt} (h : ∀ s ∈ body, s.declared = [])
    (echo : Bool) (state : RunState σ) :
    (Stmt.block body).exec echo state = Stmt.execAll echo body state := by
  have halike : ∀ s ∈ body, s.Alike .insideBlocks 0 (id s) := fun s hs =>
    Stmt.alike_insideBlocks (h s hs)
  have hopened : RunState.Alike (Scopes.Padded 0) Eq { state with scopes := state.scopes.push }
      state := ⟨.here (List.cons_ne_nil _ _), rfl⟩
  have hends := Stmt.Alike.execAll_map (Matching.insideBlocks_runs echo) halike hopened
  rw [List.map_id] at hends
  simp only [Stmt.exec]
  generalize Stmt.execAll echo body { state with scopes := state.scopes.push } = r at hends
  generalize Stmt.execAll echo body state = r' at hends
  have hresult := hends.result_eq ExecutionError.Alike.eq
  obtain ⟨hscopes, houtput⟩ := hends.states
  refine Prod.ext hresult.symm ?_
  rw [hscopes.pop_eq, houtput]

/-- An assignment, then one to the same name where a block inside declares it, then a fault. -/
def assignments : List Stmt :=
  let a : Token := ⟨.identifier, "a", none, 1⟩
  let b : Token := ⟨.identifier, "b", none, 1⟩
  [.expression (.assign a (.literal (.boolean true))),
    .block [.declare a none, .expression (.assign a (.literal .nil))],
    .conditional (.variable a) (.print (.variable b)) none]

/-- In scopes where the one name is bound further out, the block and its statements stop at the other
name; the assignment outside the inner block has reached the outer scope. -/
theorem Stmt.exec_block_eq_execAll_assignments :
    let state : RunState Transcript := ⟨⟨.empty, [⟨[("a", none)]⟩]⟩, .unlimited⟩
    (∀ s ∈ assignments, s.declared = []) ∧
    (Stmt.block assignments).exec false state = Stmt.execAll false assignments state ∧
    (Stmt.block assignments).exec false state =
      (.error (.runtime ⟨⟨.identifier, "b", none, 1⟩, .undefinedVariable "b"⟩),
        ⟨⟨.empty, [⟨[("a", some (.boolean true))]⟩]⟩, .unlimited⟩) := by
  intro state
  have h : ∀ s ∈ assignments, s.declared = [] := by decide
  have hsame := Stmt.exec_block_eq_execAll h false state
  exact ⟨h, hsame, hsame.trans rfl⟩

end LoxLang
