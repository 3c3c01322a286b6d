import LoxLang.Proofs.Scope.Bindings
import Mathlib.Logic.Function.Basic

/-!
# Renamed scopes

Scopes with their names changed, each name to one of its own. Every operation on them, with the changed
name, does what it does to the scopes as they were with the name itself.
-/

namespace LoxLang

/-- The scope with its names changed. -/
def Scope.rename (f : String → String) (scope : Scope) : Scope :=
  ⟨scope.bindings.map fun (name, binding) => (f name, binding)⟩

/-- The scopes with all their names changed. -/
def Scopes.rename (f : String → String) (scopes : Scopes) : Scopes :=
  ⟨scopes.current.rename f, scopes.enclosing.map (Scope.rename f)⟩

variable {f : String → String}

namespace Scope

theorem find?_rename (hf : Function.Injective f) (scope : Scope) (name : String) :
    (scope.rename f).find? (f name) = scope.find? name := by
  obtain ⟨bindings⟩ := scope
  unfold rename find?
  induction bindings with
  | nil => rfl
  | cons first rest ih =>
    obtain ⟨other, binding⟩ := first
    have hbeq : (f name == f other) = (name == other) := by simp [hf.eq_iff]
    rw [List.map_cons, List.lookup_cons, List.lookup_cons, hbeq, ih]

theorem insert_rename (hf : Function.Injective f) (scope : Scope) (name : String)
    (binding : Binding) :
    (scope.rename f).insert (f name) binding = (scope.insert name binding).rename f := by
  obtain ⟨bindings⟩ := scope
  unfold rename insert
  congr 1
  induction bindings with
  | nil => rfl
  | cons first rest ih =>
    obtain ⟨other, bound⟩ := first
    simp only [List.map_cons, insertInto, beq_iff_eq, hf.eq_iff]
    split
    · rfl
    · rw [List.map_cons, ih]

end Scope

namespace Scopes

theorem toList_rename (f : String → String) (scopes : Scopes) :
    (scopes.rename f).toList = scopes.toList.map (Scope.rename f) := rfl

theorem push_rename (f : String → String) (scopes : Scopes) :
    (scopes.rename f).push = scopes.push.rename f := rfl

theorem pop_rename (f : String → String) (scopes : Scopes) :
    (scopes.rename f).pop = scopes.pop.rename f := by
  obtain ⟨current, enclosing⟩ := scopes
  cases enclosing with
  | nil => rfl
  | cons outer rest => rfl

theorem bind_rename (hf : Function.Injective f) (scopes : Scopes) (name : String)
    (binding : Binding) :
    (scopes.rename f).bind (f name) binding = (scopes.bind name binding).rename f := by
  simp only [bind, rename, Scope.insert_rename hf]

theorem get_rename (hf : Function.Injective f) (scopes : Scopes) (name : String) :
    (scopes.rename f).get (f name) = scopes.get name := by
  refine get_congr ?_
  simp only [bindingsOf, toList_rename, List.map_map, Function.comp_def, Scope.find?_rename hf]

theorem assignOuter_rename (hf : Function.Injective f) (name : String) (value : Value)
    (scopes : List Scope) :
    assignOuter (f name) value (scopes.map (Scope.rename f)) =
      (assignOuter name value scopes).map (List.map (Scope.rename f)) := by
  induction scopes with
  | nil => rfl
  | cons scope rest ih =>
    simp only [List.map_cons, assignOuter, Scope.find?_rename hf, Scope.insert_rename hf, ih]
    split
    · rfl
    · rw [Option.map_map, Option.map_map]
      rfl

theorem assign_rename (hf : Function.Injective f) (scopes : Scopes) (name : String)
    (value : Value) :
    (scopes.rename f).assign (f name) value = (scopes.assign name value).map (Scopes.rename f) := by
  simp only [assign, rename, Scope.find?_rename hf, assignOuter_rename hf]
  split
  · exact congrArg Except.ok (bind_rename hf scopes name (some value))
  · cases assignOuter name value scopes.enclosing with
    | none => rfl
    | some enclosing => rfl

end Scopes

end LoxLang
