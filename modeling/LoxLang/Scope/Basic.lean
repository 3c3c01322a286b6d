import LoxLang.Value.Basic

/-!
# Scopes

A `Scope` binds names to values; a name may also be declared without a value. `Scopes`
are the scopes open at some point of a run: the current one and those around it, out to
the global scope. There is always a current scope, and the global scope is never closed.
Names are looked up from the current scope outwards.
-/

namespace LoxLang

/-- What a name is bound to; `none` stands for a name without a value so far. -/
abbrev Binding := Option Value

/-- The bindings of one scope, in the order in which their names first appeared. -/
structure Scope where
  bindings : List (String × Binding)
  deriving DecidableEq

namespace Scope

/-- A scope without bindings. -/
def empty : Scope := ⟨[]⟩

/-- The binding of a name. -/
def find? (scope : Scope) (name : String) : Option Binding := scope.bindings.lookup name

/-- Replaces the binding of a name where it stands, or adds it at the end. -/
def insertInto (name : String) (binding : Binding) :
    List (String × Binding) → List (String × Binding)
  | [] => [(name, binding)]
  | (other, bound) :: rest =>
    if name == other then (name, binding) :: rest
    else (other, bound) :: insertInto name binding rest

/-- Binds a name, in place of an earlier binding of it. -/
def insert (scope : Scope) (name : String) (binding : Binding) : Scope :=
  ⟨insertInto name binding scope.bindings⟩

/-- The names bound in a scope. -/
def names (scope : Scope) : List String := scope.bindings.map Prod.fst

/-- A binding in words. -/
def bindingText : String × Binding → String
  | (name, some value) => name ++ " = " ++ value.display
  | (name, none) => name ++ " = <uninitialized>"

/-- The bindings in words, in the order of their texts. -/
def listing (scope : Scope) : List String :=
  (scope.bindings.map bindingText).mergeSort fun a b => decide (a ≤ b)

@[simp] theorem find?_empty (name : String) : empty.find? name = none := rfl

/-- A name has the binding it was given last, and other names keep theirs. -/
theorem find?_insert (scope : Scope) (name other : String) (binding : Binding) :
    (scope.insert name binding).find? other =
      if other = name then some binding else scope.find? other := by
  obtain ⟨bindings⟩ := scope
  unfold insert find?
  induction bindings with
  | nil =>
    by_cases h : other = name
    · simp [insertInto, h]
    · simp [insertInto, h, List.lookup_cons, beq_false_of_ne h]
  | cons first rest ih =>
    obtain ⟨n, b⟩ := first
    by_cases hn : name = n
    · subst hn
      by_cases h : other = name
      · simp [insertInto, h]
      · simp [insertInto, h, List.lookup_cons, beq_false_of_ne h]
    · by_cases h : other = n
      · subst h
        simp [insertInto, hn, Ne.symm hn]
      · simpa [insertInto, hn, List.lookup_cons, beq_false_of_ne h] using ih

end Scope

/-- Why a name has no value. -/
inductive NameFault where
  | undefined
  | uninitialized
  deriving DecidableEq

/-- The open scopes: the current one and those around it, the global scope last. -/
structure Scopes where
  current : Scope
  enclosing : List Scope
  deriving DecidableEq

namespace Scopes

/-- Only the global scope, with nothing in it. -/
def initial : Scopes := ⟨.empty, []⟩

instance : Inhabited Scopes := ⟨initial⟩

/-- All open scopes, from the current one outwards. -/
def toList (scopes : Scopes) : List Scope := scopes.current :: scopes.enclosing

/-- How many scopes are open. -/
def depth (scopes : Scopes) : Nat := scopes.toList.length

/-- Opens a scope. -/
def push (scopes : Scopes) : Scopes := ⟨.empty, scopes.toList⟩

/-- Closes the current scope, unless it is the global one. -/
def pop (scopes : Scopes) : Scopes :=
  match scopes.enclosing with
  | [] => scopes
  | outer :: rest => ⟨outer, rest⟩

/-- Binds a name to a value in the current scope. -/
def define (scopes : Scopes) (name : String) (value : Value) : Scopes :=
  { scopes with current := scopes.current.insert name (some value) }

/-- Binds a name in the current scope without giving it a value. -/
def declare (scopes : Scopes) (name : String) : Scopes :=
  { scopes with current := scopes.current.insert name none }

/-- The nearest binding of a name. -/
def find? (scopes : Scopes) (name : String) : Option Binding :=
  scopes.toList.findSome? (·.find? name)

/-- The value of the nearest binding of a name. -/
def get (scopes : Scopes) (name : String) : Except NameFault Value :=
  match scopes.find? name with
  | none => .error .undefined
  | some none => .error .uninitialized
  | some (some value) => .ok value

/-- Gives a value to the nearest binding of a name among scopes around the current one. -/
def assignOuter (name : String) (value : Value) : List Scope → Option (List Scope)
  | [] => none
  | scope :: rest =>
    if (scope.find? name).isSome then some (scope.insert name (some value) :: rest)
    else (assignOuter name value rest).map (scope :: ·)

/-- Gives a value to the nearest binding of a name. A name without a binding gets none. -/
def assign (scopes : Scopes) (name : String) (value : Value) : Except NameFault Scopes :=
  if (scopes.current.find? name).isSome then .ok (scopes.define name value)
  else
    match assignOuter name value scopes.enclosing with
    | some enclosing => .ok { scopes with enclosing }
    | none => .error .undefined

/-- Every scope in words, the global scope first. -/
def listing (scopes : Scopes) : List (List String) := scopes.toList.reverse.map Scope.listing

/-- Closing undoes opening. -/
@[simp] theorem pop_push (scopes : Scopes) : scopes.push.pop = scopes := rfl

@[simp] theorem depth_push (scopes : Scopes) : scopes.push.depth = scopes.depth + 1 := rfl

end Scopes

end LoxLang
