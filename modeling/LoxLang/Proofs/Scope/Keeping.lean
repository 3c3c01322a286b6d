import LoxLang.Scope.Basic
import Mathlib.Data.List.Forall2

/-!
# What assigning keeps

A scope keeps another one if it has the same names and no name has lost its value. Assigning
keeps every scope (`Scopes.assign_keeps`): it gives a value to a name that is already there.
Defining and declaring reach the current scope alone.
-/

namespace LoxLang

/-- The second scope has the names of the first, and what had a value still has one. -/
structure Scope.Keeps (before after : Scope) : Prop where
  names : after.names = before.names
  valued : ∀ name value, before.find? name = some (some value) →
    ∃ value', after.find? name = some (some value')

/-- Every scope is kept, one by one. -/
def Scope.KeepsAll (before after : List Scope) : Prop := List.Forall₂ Scope.Keeps before after

namespace Scope

theorem Keeps.refl (scope : Scope) : scope.Keeps scope := ⟨rfl, fun _ value h => ⟨value, h⟩⟩

theorem Keeps.trans {first second third : Scope} (h : first.Keeps second)
    (h' : second.Keeps third) : first.Keeps third := by
  refine ⟨h'.names.trans h.names, ?_⟩
  intro name value hvalue
  obtain ⟨value', hvalue'⟩ := h.valued name value hvalue
  exact h'.valued name value' hvalue'

theorem KeepsAll.refl (scopes : List Scope) : KeepsAll scopes scopes :=
  List.forall₂_same.mpr fun scope _ => Keeps.refl scope

theorem KeepsAll.trans {first second third : List Scope} (h : KeepsAll first second)
    (h' : KeepsAll second third) : KeepsAll first third := by
  induction h generalizing third with
  | nil => exact h'
  | cons hscope _ ih =>
    cases h' with
    | cons hscope' hrest => exact .cons (hscope.trans hscope') (ih hrest)

theorem KeepsAll.length_eq {before after : List Scope} (h : KeepsAll before after) :
    after.length = before.length := (List.Forall₂.length_eq h).symm

/-! ### Inserting -/

/-- A name is bound exactly if it is among the names. -/
theorem find?_isSome_iff {scope : Scope} {name : String} :
    (scope.find? name).isSome = true ↔ name ∈ scope.names := by
  obtain ⟨bindings⟩ := scope
  unfold find? names
  induction bindings with
  | nil => simp
  | cons first rest ih =>
    obtain ⟨other, bound⟩ := first
    by_cases h : name = other
    · simp [h]
    · simp [List.lookup_cons, beq_false_of_ne h, h, ih]

/-- A name that is bound already is bound in its place. -/
theorem names_insert {scope : Scope} {name : String} (h : name ∈ scope.names) (binding : Binding) :
    (scope.insert name binding).names = scope.names := by
  obtain ⟨bindings⟩ := scope
  unfold insert names
  change name ∈ bindings.map Prod.fst at h
  induction bindings with
  | nil => exact absurd h (by simp)
  | cons first rest ih =>
    obtain ⟨other, bound⟩ := first
    by_cases hname : name = other
    · simp [insertInto, hname]
    · have hrest : name ∈ rest.map Prod.fst := by simpa [hname] using h
      simpa [insertInto, hname] using ih hrest

/-- A name is bound after another one was, if it was before or is that name. -/
theorem mem_names_insert {scope : Scope} {name other : String} {binding : Binding} :
    other ∈ (scope.insert name binding).names ↔ other ∈ scope.names ∨ other = name := by
  rw [← find?_isSome_iff, ← find?_isSome_iff, find?_insert]
  split
  · next h => simp [h]
  · next h => simp [h]

/-- Giving a value to a name that is there keeps the scope. -/
theorem keeps_insert {scope : Scope} {name : String} (h : (scope.find? name).isSome = true)
    (value : Value) : scope.Keeps (scope.insert name (some value)) := by
  refine ⟨names_insert (find?_isSome_iff.mp h) _, ?_⟩
  intro other bound hbound
  rw [find?_insert]
  split
  · exact ⟨value, rfl⟩
  · exact ⟨bound, hbound⟩

end Scope

namespace Scopes

theorem assignOuter_keeps {name : String} {value : Value} {scopes assigned : List Scope}
    (h : assignOuter name value scopes = some assigned) : Scope.KeepsAll scopes assigned := by
  induction scopes generalizing assigned with
  | nil => exact absurd h (by simp [assignOuter])
  | cons scope rest ih =>
    unfold assignOuter at h
    split at h
    · next hbound =>
      rw [← Option.some.inj h]
      exact .cons (Scope.keeps_insert hbound value) (Scope.KeepsAll.refl rest)
    · obtain ⟨rest', hrest, rfl⟩ := Option.map_eq_some_iff.mp h
      exact .cons (Scope.Keeps.refl scope) (ih hrest)

/-- The current scope is searched like those around it. -/
theorem assignOuter_toList {scopes assigned : Scopes} {name : String} {value : Value}
    (h : scopes.assign name value = .ok assigned) :
    assignOuter name value scopes.toList = some assigned.toList := by
  unfold assign at h
  unfold toList assignOuter
  split at h
  · next hbound =>
    rw [if_pos hbound, ← Except.ok.inj h]
    rfl
  · next hbound =>
    split at h
    · next enclosing henclosing =>
      rw [if_neg hbound, henclosing, ← Except.ok.inj h]
      rfl
    · exact absurd h (by simp)

/-- Assigning is assigning among all scopes. -/
theorem assign_eq (scopes : Scopes) (name : String) (value : Value) :
    (∃ assigned : Scopes, assignOuter name value scopes.toList = some assigned.toList ∧
      scopes.assign name value = .ok assigned) ∨
    assignOuter name value scopes.toList = none ∧ scopes.assign name value = .error .undefined := by
  cases hassign : scopes.assign name value with
  | ok assigned => exact .inl ⟨assigned, assignOuter_toList hassign, rfl⟩
  | error fault =>
    unfold assign at hassign
    unfold toList assignOuter
    split at hassign
    · exact absurd hassign (by simp)
    · next hbound =>
      split at hassign
      · exact absurd hassign (by simp)
      · next henclosing => exact .inr ⟨by simp [hbound, henclosing], by rw [← hassign]⟩

/-- **Assigning keeps all scopes.** -/
theorem assign_keeps {scopes assigned : Scopes} {name : String} {value : Value}
    (h : scopes.assign name value = .ok assigned) : Scope.KeepsAll scopes.toList assigned.toList :=
  assignOuter_keeps (assignOuter_toList h)

end Scopes

end LoxLang
