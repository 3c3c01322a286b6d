import LoxLang.Proofs.Scope.Keeping

/-!
# The bindings of one name

What the scopes bind one name to, scope by scope. Looking the name up and assigning to it depend on
these bindings alone, and an operation on another name leaves them as they are. Only the current scope
is reached by a declaration.
-/

namespace LoxLang

namespace Scopes

/-- The bindings of a name, from the current scope outwards. -/
def bindingsOf (scopes : Scopes) (name : String) : List (Option Binding) :=
  scopes.toList.map (·.find? name)

/-- Binds a name in the current scope, as `define` and `declare` do. -/
def bind (scopes : Scopes) (name : String) (binding : Binding) : Scopes :=
  { scopes with current := scopes.current.insert name binding }

/-- Gives a value to the nearest binding, if there is one. -/
def rebindNearest (value : Value) : List (Option Binding) → Option (List (Option Binding))
  | [] => none
  | some _ :: rest => some (some (some value) :: rest)
  | none :: rest => (rebindNearest value rest).map (none :: ·)

theorem length_bindingsOf (scopes : Scopes) (name : String) :
    (scopes.bindingsOf name).length = scopes.depth := List.length_map _

/-- What is looked up depends on the bindings of the name alone. -/
theorem get_congr {a b : Scopes} {name name' : String}
    (h : a.bindingsOf name = b.bindingsOf name') : a.get name = b.get name' := by
  have hfind : ∀ (scopes : Scopes) (name : String),
      scopes.find? name = (scopes.bindingsOf name).findSome? id := by
    intro scopes name
    rw [find?, bindingsOf, List.findSome?_map]
    rfl
  rw [get, get, hfind, hfind, h]

/-! ### Opening, closing and binding -/

theorem bindingsOf_push (scopes : Scopes) (name : String) :
    scopes.push.bindingsOf name = none :: scopes.bindingsOf name := rfl

/-- Closing a scope that is not the global one leaves the others. -/
theorem depth_pop {scopes : Scopes} (h : 1 < scopes.depth) : scopes.pop.depth = scopes.depth - 1 := by
  obtain ⟨current, enclosing⟩ := scopes
  cases enclosing with
  | nil => exact absurd h (by simp [depth, toList])
  | cons outer rest => rfl

theorem bindingsOf_pop {scopes : Scopes} (h : 1 < scopes.depth) (name : String) :
    scopes.pop.bindingsOf name = (scopes.bindingsOf name).tail := by
  obtain ⟨current, enclosing⟩ := scopes
  cases enclosing with
  | nil => exact absurd h (by simp [depth, toList])
  | cons outer rest => rfl

theorem pop_of_depth {scopes : Scopes} (h : scopes.depth ≤ 1) : scopes.pop = scopes := by
  obtain ⟨current, enclosing⟩ := scopes
  cases enclosing with
  | nil => rfl
  | cons outer rest => simp [depth, toList] at h

theorem bindingsOf_bind_self (scopes : Scopes) (name : String) (binding : Binding) :
    (scopes.bind name binding).bindingsOf name =
      some binding :: (scopes.bindingsOf name).tail := by
  simp [bindingsOf, bind, toList, Scope.find?_insert]

theorem bindingsOf_bind_of_ne {name other : String} (h : other ≠ name) (scopes : Scopes)
    (binding : Binding) : (scopes.bind name binding).bindingsOf other = scopes.bindingsOf other := by
  simp [bindingsOf, bind, toList, Scope.find?_insert, h]

/-- Around the current scope nothing is bound. -/
theorem tail_bindingsOf_bind (scopes : Scopes) (name other : String) (binding : Binding) :
    ((scopes.bind name binding).bindingsOf other).tail = (scopes.bindingsOf other).tail := rfl

theorem depth_bind (scopes : Scopes) (name : String) (binding : Binding) :
    (scopes.bind name binding).depth = scopes.depth := rfl

/-! ### Assigning -/

/-- Assigning gives the value to the nearest binding of the name, if there is one. -/
theorem rebindNearest_map (name : String) (value : Value) (scopes : List Scope) :
    rebindNearest value (scopes.map (·.find? name)) =
      (assignOuter name value scopes).map (List.map (·.find? name)) := by
  induction scopes with
  | nil => rfl
  | cons scope rest ih =>
    simp only [List.map_cons, assignOuter]
    cases hbound : scope.find? name with
    | none =>
      simp only [rebindNearest, ih, Option.isSome_none, Bool.false_eq_true, ↓reduceIte,
        Option.map_map]
      refine Option.map_congr fun rest' _ => ?_
      simp [hbound]
    | some binding => simp [rebindNearest, Scope.find?_insert]

/-- Other names are bound as before. -/
theorem map_find?_assignOuter {name other : String} (hne : other ≠ name) {value : Value}
    {scopes assigned : List Scope} (h : assignOuter name value scopes = some assigned) :
    assigned.map (·.find? other) = scopes.map (·.find? other) := by
  induction scopes generalizing assigned with
  | nil => exact absurd h (by simp [assignOuter])
  | cons scope rest ih =>
    unfold assignOuter at h
    split at h
    · rw [← Option.some.inj h]
      simp [Scope.find?_insert, hne]
    · obtain ⟨rest', hrest, rfl⟩ := Option.map_eq_some_iff.mp h
      rw [List.map_cons, List.map_cons, ih hrest]

/-- **What assigning does is told by the bindings of the name**, and it does nothing to those of other
names. -/
theorem assign_bindings (scopes : Scopes) (name : String) (value : Value) :
    (∃ assigned, scopes.assign name value = .ok assigned ∧ assigned.depth = scopes.depth ∧
      rebindNearest value (scopes.bindingsOf name) = some (assigned.bindingsOf name) ∧
      ∀ other, other ≠ name → assigned.bindingsOf other = scopes.bindingsOf other) ∨
    scopes.assign name value = .error .undefined ∧
      rebindNearest value (scopes.bindingsOf name) = none := by
  rcases scopes.assign_eq name value with ⟨assigned, houter, hassign⟩ | ⟨houter, hassign⟩
  · refine .inl ⟨assigned, hassign, (assign_keeps hassign).length_eq, ?_, fun other hne => ?_⟩
    · rw [bindingsOf, rebindNearest_map, houter]
      rfl
    · exact map_find?_assignOuter hne houter
  · refine .inr ⟨hassign, ?_⟩
    rw [bindingsOf, rebindNearest_map, houter]
    rfl

end Scopes

end LoxLang
