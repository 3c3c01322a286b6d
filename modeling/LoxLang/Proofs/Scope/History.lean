import LoxLang.Execution.Fault
import LoxLang.Proofs.Scope.Keeping
import Mathlib.Data.List.MinMax

/-!
# Scopes as a history of bindings

The open scopes hold the bindings of a program scope by scope. A `History` keeps the same bindings
in one list, each with the depth at which it was made, and the current depth. There a name is looked
up by its deepest entry, and closing a scope deletes the entries of the current depth. Whatever is
asked of the scopes, from the first request on, they give the answers that the history gives, and
they hold its entries (`trace_refines_history`).
-/

namespace LoxLang

/-! ### Requests -/

/-- What can be asked of the open scopes. Values are asked for by the token of a name. -/
inductive ScopeRequest where
  | push
  | pop
  | define (name : String) (value : Value)
  | declare (name : String)
  | get (name : Token)
  | assign (name : Token) (value : Value)
  deriving DecidableEq

/-- The answer to a request: a value where one was asked for, or the error of the name. -/
abbrev ScopeAnswer := Except RuntimeError (Option Value)

/-- The answer to a request, and the scopes then. -/
def Scopes.serve (scopes : Scopes) : ScopeRequest → ScopeAnswer × Scopes
  | .push => (.ok none, scopes.push)
  | .pop => (.ok none, scopes.pop)
  | .define name value => (.ok none, scopes.define name value)
  | .declare name => (.ok none, scopes.declare name)
  | .get name => (((scopes.get name.lexeme).mapError (.ofName name)).map some, scopes)
  | .assign name value =>
    match scopes.assign name.lexeme value with
    | .ok assigned => (.ok none, assigned)
    | .error fault => (.error (.ofName name fault), scopes)

/-- The answers to requests, one after the other, each with the state after it. -/
def ScopeRequest.trace {σ : Type} (serve : σ → ScopeRequest → ScopeAnswer × σ) :
    List ScopeRequest → σ → List (ScopeAnswer × σ)
  | [], _ => []
  | request :: more, state => serve state request :: trace serve more (serve state request).2

/-! ### The history -/

/-- A binding of a name, made at some depth. The global scope is at depth 1. -/
structure Entry where
  depth : Nat
  name : String
  binding : Binding
  deriving DecidableEq

/-- All bindings that are not closed, and the current depth. -/
structure History where
  entries : List Entry
  depth : Nat
  deriving DecidableEq

namespace History

/-- No entry, at the depth of the global scope. -/
def initial : History := ⟨[], 1⟩

/-- The entries, with a new binding for that of the name at the depth. -/
def overwrite (depth : Nat) (name : String) (binding : Binding) (entries : List Entry) :
    List Entry :=
  entries.map fun entry =>
    if entry.depth = depth ∧ entry.name = name then { entry with binding } else entry

/-- Replaces the entry of the name at the current depth, or adds one. -/
def bind (history : History) (name : String) (binding : Binding) : History :=
  if ∃ entry ∈ history.entries, entry.depth = history.depth ∧ entry.name = name then
    { history with entries := overwrite history.depth name binding history.entries }
  else { history with entries := history.entries ++ [⟨history.depth, name, binding⟩] }

/-- The deepest entry of the name. -/
def deepest? (entries : List Entry) (name : String) : Option Entry :=
  (entries.filter (·.name = name)).argmax Entry.depth

/-- The answer to a request, and the history then. -/
def serve (history : History) : ScopeRequest → ScopeAnswer × History
  | .push => (.ok none, { history with depth := history.depth + 1 })
  | .pop =>
    if history.depth = 1 then (.ok none, history)
    else (.ok none, ⟨history.entries.filter (·.depth ≠ history.depth), history.depth - 1⟩)
  | .define name value => (.ok none, history.bind name (some value))
  | .declare name => (.ok none, history.bind name none)
  | .get name =>
    match deepest? history.entries name.lexeme with
    | none => (.error ⟨name, .undefinedVariable name.lexeme⟩, history)
    | some ⟨_, _, none⟩ => (.error ⟨name, .uninitializedVariable name.lexeme⟩, history)
    | some ⟨_, _, some value⟩ => (.ok (some value), history)
  | .assign name value =>
    match deepest? history.entries name.lexeme with
    | none => (.error ⟨name, .undefinedVariable name.lexeme⟩, history)
    | some entry =>
      (.ok none,
        { history with entries := overwrite entry.depth name.lexeme (some value) history.entries })

/-- The bindings made at a depth, in order. -/
def bindingsAt (entries : List Entry) (depth : Nat) : List (String × Binding) :=
  (entries.filter (·.depth = depth)).map fun entry => (entry.name, entry.binding)

/-- The bindings of all depths, from the global scope on. -/
def bindings (history : History) : List (List (String × Binding)) :=
  (List.range' 1 history.depth).map (bindingsAt history.entries)

end History

/-- The bindings of all scopes, from the global scope on. -/
def Scopes.bindings (scopes : Scopes) : List (List (String × Binding)) :=
  scopes.toList.reverse.map Scope.bindings

/-! ### One scope -/

namespace Scope

/-- The bindings with a new one for the name. -/
def rebind (name : String) (binding : Binding) (bindings : List (String × Binding)) :
    List (String × Binding) :=
  bindings.map fun bound => if bound.1 = name then (bound.1, binding) else bound

theorem find?_of_mem {scope : Scope} (hdistinct : scope.names.Nodup) {name : String}
    {binding : Binding} (h : (name, binding) ∈ scope.bindings) :
    scope.find? name = some binding := by
  obtain ⟨bindings⟩ := scope
  unfold names at hdistinct
  unfold find?
  induction bindings with
  | nil => exact absurd h List.not_mem_nil
  | cons first rest ih =>
    obtain ⟨other, bound⟩ := first
    obtain ⟨hfirst, hrest⟩ := List.nodup_cons.mp hdistinct
    rcases List.mem_cons.mp h with hsame | hmem
    · obtain ⟨rfl, rfl⟩ := Prod.mk.inj hsame
      exact List.lookup_cons_self
    · have hne : name ≠ other := by
        rintro rfl
        exact hfirst (List.mem_map.mpr ⟨_, hmem, rfl⟩)
      simpa [List.lookup_cons, beq_false_of_ne hne] using ih hrest hmem

/-- A name that is there is bound in its place. -/
theorem bindings_insert_of_mem {scope : Scope} (hdistinct : scope.names.Nodup) {name : String}
    (h : name ∈ scope.names) (binding : Binding) :
    (scope.insert name binding).bindings = rebind name binding scope.bindings := by
  obtain ⟨bindings⟩ := scope
  unfold names at hdistinct h
  unfold insert rebind
  induction bindings with
  | nil => exact absurd h List.not_mem_nil
  | cons first rest ih =>
    obtain ⟨other, bound⟩ := first
    obtain ⟨hfirst, hrest⟩ := List.nodup_cons.mp hdistinct
    by_cases hname : name = other
    · subst hname
      have hothers : ∀ bound ∈ rest,
          (if bound.1 = name then (bound.1, binding) else bound) = bound := by
        intro bound hbound
        exact if_neg fun hsame => hfirst (List.mem_map.mpr ⟨bound, hbound, hsame⟩)
      simp [insertInto, List.map_congr_left hothers]
    · have hmem : name ∈ rest.map Prod.fst := by simpa [hname] using h
      simpa [insertInto, hname, Ne.symm hname] using ih hrest hmem

/-- A new name is bound behind the others. -/
theorem bindings_insert_of_not_mem {scope : Scope} {name : String} (h : name ∉ scope.names)
    (binding : Binding) :
    (scope.insert name binding).bindings = scope.bindings ++ [(name, binding)] := by
  obtain ⟨bindings⟩ := scope
  unfold names at h
  unfold insert
  induction bindings with
  | nil => rfl
  | cons first rest ih =>
    obtain ⟨other, bound⟩ := first
    have hname : name ≠ other := fun hsame => h (hsame ▸ List.mem_cons_self)
    have hrest : name ∉ rest.map Prod.fst := fun hmem => h (List.mem_cons_of_mem _ hmem)
    simpa [insertInto, hname] using ih hrest

theorem nodup_names_insert {scope : Scope} (hdistinct : scope.names.Nodup) (name : String)
    (binding : Binding) : (scope.insert name binding).names.Nodup := by
  by_cases h : name ∈ scope.names
  · rwa [names_insert h]
  · have hnames : (scope.insert name binding).names = scope.names ++ [name] := by
      rw [names, bindings_insert_of_not_mem h, List.map_append]
      rfl
    rw [hnames]
    refine List.nodup_append.mpr ⟨hdistinct, by simp, ?_⟩
    rintro other hother _ hname rfl
    exact h (List.mem_singleton.mp hname ▸ hother)

end Scope

/-! ### Entries of one depth -/

namespace History

variable {entries : List Entry} {depth other : Nat} {name : String} {binding : Binding}

theorem mem_names_bindingsAt :
    name ∈ (bindingsAt entries depth).map Prod.fst ↔
      ∃ entry ∈ entries, entry.depth = depth ∧ entry.name = name := by
  simp only [bindingsAt, List.map_map, List.mem_map, List.mem_filter, decide_eq_true_eq,
    Function.comp_apply, and_assoc]

theorem mem_bindingsAt {entry : Entry} (h : entry ∈ entries) :
    (entry.name, entry.binding) ∈ bindingsAt entries entry.depth :=
  List.mem_map.mpr ⟨entry, List.mem_filter.mpr ⟨h, by simp⟩, rfl⟩

theorem bindingsAt_overwrite (entries : List Entry) (depth : Nat) (name : String)
    (binding : Binding) : bindingsAt (overwrite depth name binding entries) depth =
      Scope.rebind name binding (bindingsAt entries depth) := by
  induction entries with
  | nil => rfl
  | cons entry entries ih =>
    unfold bindingsAt overwrite Scope.rebind at ih ⊢
    by_cases hdepth : entry.depth = depth
    · by_cases hname : entry.name = name <;> simp_all
    · simp_all

theorem bindingsAt_overwrite_of_ne (h : other ≠ depth) (entries : List Entry) (name : String)
    (binding : Binding) :
    bindingsAt (overwrite depth name binding entries) other = bindingsAt entries other := by
  induction entries with
  | nil => rfl
  | cons entry entries ih =>
    unfold bindingsAt overwrite at ih ⊢
    by_cases hdepth : entry.depth = depth
    · by_cases hname : entry.name = name <;> simp_all [Ne.symm h]
    · by_cases hother : entry.depth = other <;> simp_all

theorem bindingsAt_append (entries more : List Entry) (depth : Nat) :
    bindingsAt (entries ++ more) depth = bindingsAt entries depth ++ bindingsAt more depth := by
  simp only [bindingsAt, List.filter_append, List.map_append]

/-! ### Entries and scopes -/

/-- The scopes, the current one first, hold what the entries say for their depths, and no name
twice. -/
inductive Shows (entries : List Entry) : List Scope → Prop where
  | nil : Shows entries []
  | cons {scope : Scope} {rest : List Scope} :
      scope.bindings = bindingsAt entries (rest.length + 1) → scope.names.Nodup →
      Shows entries rest → Shows entries (scope :: rest)

variable {scope : Scope} {rest scopes : List Scope}

/-- Scopes are told by the entries of their own depths. -/
theorem Shows.congr {others : List Entry} (h : Shows entries scopes)
    (hsame : ∀ depth, depth ≤ scopes.length → bindingsAt others depth = bindingsAt entries depth) :
    Shows others scopes := by
  induction h with
  | nil => exact .nil
  | cons hscope hdistinct _ ih =>
    exact .cons (hscope.trans (hsame _ (Nat.le_refl _)).symm) hdistinct
      (ih fun depth hdepth => hsame depth (Nat.le_succ_of_le hdepth))

/-- A name is bound in a scope exactly if there is an entry of it at that depth. -/
theorem Shows.mem_names_iff (h : Shows entries (scope :: rest)) :
    name ∈ scope.names ↔ ∃ entry ∈ entries, entry.depth = rest.length + 1 ∧ entry.name = name := by
  cases h with
  | cons hscope => rw [Scope.names, hscope, mem_names_bindingsAt]

/-- A new binding for a name that the scope in front binds already. -/
theorem Shows.overwrite (h : Shows entries (scope :: rest)) (hname : name ∈ scope.names)
    (binding : Binding) :
    Shows (History.overwrite (rest.length + 1) name binding entries)
      (scope.insert name binding :: rest) := by
  cases h with
  | cons hscope hdistinct hrest =>
    refine .cons ?_ (Scope.nodup_names_insert hdistinct name binding) (hrest.congr ?_)
    · rw [Scope.bindings_insert_of_mem hdistinct hname, hscope, bindingsAt_overwrite]
    · intro depth hdepth
      exact bindingsAt_overwrite_of_ne (Nat.ne_of_lt (Nat.lt_succ_of_le hdepth)) ..

/-- A new name in the scope in front. -/
theorem Shows.append (h : Shows entries (scope :: rest)) (hname : name ∉ scope.names)
    (binding : Binding) :
    Shows (entries ++ [⟨rest.length + 1, name, binding⟩]) (scope.insert name binding :: rest) := by
  cases h with
  | cons hscope hdistinct hrest =>
    refine .cons ?_ (Scope.nodup_names_insert hdistinct name binding) (hrest.congr ?_)
    · rw [Scope.bindings_insert_of_not_mem hname, hscope, bindingsAt_append]
      simp [bindingsAt]
    · intro depth hdepth
      have hne : rest.length + 1 ≠ depth := Nat.ne_of_gt (Nat.lt_succ_of_le hdepth)
      rw [bindingsAt_append]
      simp [bindingsAt, hne]

/-- The value of a name is looked up, and a new one is given, where the deepest entry says. -/
theorem Shows.search (h : Shows entries scopes) {entry : Entry} (hentry : entry ∈ entries)
    (hpos : 1 ≤ entry.depth) (hdepth : entry.depth ≤ scopes.length)
    (hdeepest : ∀ other ∈ entries, other.name = entry.name → other.depth ≤ entry.depth)
    (value : Value) :
    scopes.findSome? (·.find? entry.name) = some entry.binding ∧
    ∃ assigned, Scopes.assignOuter entry.name value scopes = some assigned ∧
      Shows (History.overwrite entry.depth entry.name (some value) entries) assigned := by
  induction scopes with
  | nil => exact absurd (Nat.le_trans hpos hdepth) (by simp)
  | cons scope rest ih =>
    have hnames : entry.name ∈ scope.names ↔
        ∃ other ∈ entries, other.depth = rest.length + 1 ∧ other.name = entry.name :=
      h.mem_names_iff
    by_cases hhere : entry.depth = rest.length + 1
    · have hname : entry.name ∈ scope.names := hnames.mpr ⟨entry, hentry, hhere, rfl⟩
      have hassigned := h.overwrite hname (some value)
      cases h with
      | cons hscope hdistinct hrest =>
        have hmem : (entry.name, entry.binding) ∈ scope.bindings := by
          rw [hscope, ← hhere]
          exact mem_bindingsAt hentry
        have hfound := Scope.find?_of_mem hdistinct hmem
        refine ⟨by simp [hfound], _, ?_, hhere ▸ hassigned⟩
        simp [Scopes.assignOuter, hfound]
    · -- An entry of the name at this depth would be deeper than the deepest.
      have hname : entry.name ∉ scope.names := by
        intro hname
        obtain ⟨other, hother, hsame, hothername⟩ := hnames.mp hname
        have := hdeepest other hother hothername
        simp only [List.length_cons] at hdepth
        omega
      have hfound : scope.find? entry.name = none :=
        Option.not_isSome_iff_eq_none.mp fun hsome => hname (Scope.find?_isSome_iff.mp hsome)
      cases h with
      | cons hscope hdistinct hrest =>
        simp only [List.length_cons] at hdepth
        obtain ⟨hvalue, assigned, hassigned, hshows⟩ := ih hrest (by omega)
        refine ⟨by simpa [hfound] using hvalue, scope :: assigned, ?_, .cons ?_ hdistinct hshows⟩
        · simp [Scopes.assignOuter, hfound, hassigned]
        · have hlength : assigned.length = rest.length :=
            (Scopes.assignOuter_keeps hassigned).length_eq
          rw [hlength, hscope]
          exact (bindingsAt_overwrite_of_ne (Ne.symm hhere) ..).symm

/-- A name without an entry is bound in no scope. -/
theorem Shows.search_none (h : Shows entries scopes)
    (hnone : ∀ entry ∈ entries, entry.name ≠ name) (value : Value) :
    scopes.findSome? (·.find? name) = none ∧ Scopes.assignOuter name value scopes = none := by
  induction scopes with
  | nil => exact ⟨rfl, rfl⟩
  | cons scope rest ih =>
    have hname : name ∉ scope.names := by
      intro hname
      obtain ⟨entry, hentry, -, hsame⟩ := h.mem_names_iff.mp hname
      exact hnone entry hentry hsame
    have hfound : scope.find? name = none :=
      Option.not_isSome_iff_eq_none.mp fun hsome => hname (Scope.find?_isSome_iff.mp hsome)
    cases h with
    | cons _ _ hrest =>
      obtain ⟨hvalue, hassigned⟩ := ih hrest
      exact ⟨by simpa [hfound] using hvalue, by simp [Scopes.assignOuter, hfound, hassigned]⟩

/-- All scopes in the order of their depths. -/
theorem Shows.bindings_eq (h : Shows entries scopes) :
    scopes.reverse.map Scope.bindings = (List.range' 1 scopes.length).map (bindingsAt entries) := by
  induction h with
  | nil => rfl
  | @cons scope rest hscope _ _ ih =>
    rw [List.reverse_cons, List.map_append, ih, List.length_cons, List.range'_1_concat,
      List.map_append, List.map_singleton, List.map_singleton, hscope, Nat.add_comm]

theorem Shows.nodup_names (h : Shows entries scopes) : ∀ scope ∈ scopes, scope.names.Nodup := by
  induction h with
  | nil => simp
  | cons _ hdistinct _ ih => exact List.forall_mem_cons.mpr ⟨hdistinct, ih⟩

/-! ### Lookup in the history -/

theorem deepest?_eq_none_iff :
    deepest? entries name = none ↔ ∀ entry ∈ entries, entry.name ≠ name := by
  simp [deepest?, List.filter_eq_nil_iff]

theorem of_deepest? {entry : Entry} (h : deepest? entries name = some entry) :
    entry ∈ entries ∧ entry.name = name ∧
      ∀ other ∈ entries, other.name = name → other.depth ≤ entry.depth := by
  obtain ⟨hmem, hname⟩ := List.mem_filter.mp (List.argmax_mem h)
  refine ⟨hmem, by simpa using hname, fun other hother hsame => ?_⟩
  exact List.le_of_mem_argmax (List.mem_filter.mpr ⟨hother, by simpa using hsame⟩) h

/-- No entry changes its depth. -/
theorem within_overwrite {limit : Nat}
    (h : ∀ entry ∈ entries, 1 ≤ entry.depth ∧ entry.depth ≤ limit) (depth : Nat) (name : String)
    (binding : Binding) :
    ∀ entry ∈ overwrite depth name binding entries, 1 ≤ entry.depth ∧ entry.depth ≤ limit := by
  intro entry hentry
  obtain ⟨old, hold, rfl⟩ := List.mem_map.mp hentry
  have hbounds := h old hold
  split
  · exact hbounds
  · exact hbounds

end History

/-! ### Requests are answered alike -/

/-- The scopes hold the entries of the history, which stands at their depth. -/
structure Scopes.Agrees (scopes : Scopes) (history : History) : Prop where
  shows : History.Shows history.entries scopes.toList
  depth : history.depth = scopes.depth
  within : ∀ entry ∈ history.entries, 1 ≤ entry.depth ∧ entry.depth ≤ history.depth

namespace Scopes

variable {scopes : Scopes} {history : History}

theorem agrees_initial : initial.Agrees .initial :=
  ⟨.cons rfl List.nodup_nil .nil, rfl, by simp [History.initial]⟩

/-- There are no entries yet at the depth of a new scope. -/
theorem Agrees.push (h : scopes.Agrees history) :
    scopes.push.Agrees { history with depth := history.depth + 1 } := by
  refine ⟨.cons ?_ List.nodup_nil h.shows, congrArg (· + 1) h.depth, fun entry hentry => ?_⟩
  · have hnone : ∀ entry ∈ history.entries, entry.depth ≠ scopes.push.enclosing.length + 1 := by
      intro entry hentry hnew
      have hle := (h.within entry hentry).2
      rw [h.depth, hnew] at hle
      exact absurd hle (Nat.not_succ_le_self _)
    rw [History.bindingsAt, List.filter_eq_nil_iff.mpr (by simpa using hnone)]
    rfl
  · exact ⟨(h.within entry hentry).1, Nat.le_succ_of_le (h.within entry hentry).2⟩

/-- The entries of the current depth are those of the scope that is closed. -/
theorem Agrees.pop (h : scopes.Agrees history) (hdepth : history.depth ≠ 1) :
    scopes.pop.Agrees
      ⟨history.entries.filter (·.depth ≠ history.depth), history.depth - 1⟩ := by
  obtain ⟨current, enclosing⟩ := scopes
  obtain ⟨hshows, hdepthEq, hwithin⟩ := h
  cases enclosing with
  | nil => exact absurd hdepthEq hdepth
  | cons outer rest =>
    have hlength : history.depth = (outer :: rest).length + 1 := hdepthEq
    cases hshows with
    | cons _ _ hrest =>
      refine ⟨hrest.congr fun depth hle => ?_, by rw [hlength]; rfl, fun entry hentry => ?_⟩
      · have hle : depth ≤ (outer :: rest).length := hle
        have hne : depth ≠ history.depth := by omega
        rw [History.bindingsAt, History.bindingsAt, List.filter_filter]
        refine congrArg _ (List.filter_congr fun entry _ => ?_)
        by_cases hentry : entry.depth = depth <;> simp [hentry, hne]
      · obtain ⟨hmem, hkept⟩ := List.mem_filter.mp hentry
        have hkept : entry.depth ≠ history.depth := by simpa using hkept
        have hbounds := hwithin entry hmem
        exact ⟨hbounds.1, by simp only; omega⟩

/-- A binding in the current scope is an entry at the current depth. -/
theorem Agrees.bind (h : scopes.Agrees history) (name : String) (binding : Binding) :
    Agrees { scopes with current := scopes.current.insert name binding }
      (history.bind name binding) := by
  have hshows : History.Shows history.entries (scopes.current :: scopes.enclosing) := h.shows
  have hdepth : history.depth = scopes.enclosing.length + 1 := h.depth
  unfold History.bind
  split
  · next hbound =>
    have hname : name ∈ scopes.current.names := hshows.mem_names_iff.mpr (hdepth ▸ hbound)
    refine ⟨?_, hdepth, History.within_overwrite h.within _ _ _⟩
    have hcurrent := hshows.overwrite hname binding
    rwa [← hdepth] at hcurrent
  · next hbound =>
    have hname : name ∉ scopes.current.names := fun hname =>
      hbound (hdepth ▸ hshows.mem_names_iff.mp hname)
    refine ⟨?_, hdepth, ?_⟩
    · have hcurrent := hshows.append hname binding
      rwa [← hdepth] at hcurrent
    · refine List.forall_mem_append.mpr ⟨h.within, List.forall_mem_singleton.mpr ?_⟩
      exact ⟨by simp only; omega, Nat.le_refl _⟩

/-- The deepest entry of a name is found in the scopes, where a new value for it goes. -/
theorem Agrees.search (h : scopes.Agrees history) {entry : Entry} {name : String}
    (hentry : History.deepest? history.entries name = some entry) (value : Value) :
    scopes.find? name = some entry.binding ∧
    ∃ assigned, assignOuter name value scopes.toList = some assigned ∧
      History.Shows (History.overwrite entry.depth name (some value) history.entries) assigned := by
  obtain ⟨hmem, rfl, hdeepest⟩ := History.of_deepest? hentry
  obtain ⟨hpos, hdepth⟩ := h.within entry hmem
  rw [h.depth] at hdepth
  exact h.shows.search hmem hpos hdepth hdeepest value

theorem Agrees.search_none (h : scopes.Agrees history) {name : String}
    (hnone : History.deepest? history.entries name = none) (value : Value) :
    scopes.find? name = none ∧ assignOuter name value scopes.toList = none :=
  h.shows.search_none (History.deepest?_eq_none_iff.mp hnone) value

/-- **A request is answered alike** by scopes and history that agree, and they agree afterwards. -/
theorem Agrees.serve (h : scopes.Agrees history) (request : ScopeRequest) :
    (scopes.serve request).1 = (history.serve request).1 ∧
      (scopes.serve request).2.Agrees (history.serve request).2 := by
  cases request with
  | push => exact ⟨rfl, h.push⟩
  | pop =>
    unfold Scopes.serve History.serve
    by_cases hdepth : history.depth = 1
    · have hglobal : scopes.pop = scopes := by
        obtain ⟨current, enclosing⟩ := scopes
        cases enclosing with
        | nil => rfl
        | cons outer rest =>
          have hlength : history.depth = rest.length + 1 + 1 := h.depth
          omega
      simp only [hdepth, ↓reduceIte, hglobal]
      exact ⟨trivial, h⟩
    · simp only [hdepth, ↓reduceIte]
      exact ⟨trivial, h.pop hdepth⟩
  | define name value => exact ⟨rfl, h.bind name (some value)⟩
  | declare name => exact ⟨rfl, h.bind name none⟩
  | get name =>
    unfold Scopes.serve History.serve Scopes.get
    dsimp only
    cases hentry : History.deepest? history.entries name.lexeme with
    | none =>
      have hfound := (h.search_none hentry .nil).1
      rw [hfound]
      exact ⟨rfl, h⟩
    | some entry =>
      have hfound := (h.search hentry .nil).1
      rw [hfound]
      obtain ⟨depth, other, binding⟩ := entry
      cases binding <;> exact ⟨rfl, h⟩
  | assign name value =>
    unfold Scopes.serve History.serve
    dsimp only
    cases hentry : History.deepest? history.entries name.lexeme with
    | none =>
      have hnone := (h.search_none hentry value).2
      obtain ⟨assigned, hassigned, -⟩ | ⟨-, hfault⟩ := scopes.assign_eq name.lexeme value
      · rw [hnone] at hassigned
        exact absurd hassigned (by simp)
      · rw [hfault]
        exact ⟨rfl, h⟩
    | some entry =>
      obtain ⟨-, all, hall, hshows⟩ := h.search hentry value
      obtain ⟨assigned, hassigned, hok⟩ | ⟨hnone, -⟩ := scopes.assign_eq name.lexeme value
      · rw [hall, Option.some.injEq] at hassigned
        subst hassigned
        have hdepth : assigned.depth = scopes.depth := (assignOuter_keeps hall).length_eq
        rw [hok]
        exact ⟨rfl, hshows, h.depth.trans hdepth.symm, History.within_overwrite h.within _ _ _⟩
      · rw [hnone] at hall
        exact absurd hall (by simp)

theorem Agrees.bindings_eq (h : scopes.Agrees history) : scopes.bindings = history.bindings := by
  rw [bindings, h.shows.bindings_eq, History.bindings, h.depth]
  rfl

end Scopes

/-- **The same answers to any number of requests**, with agreement after each of them. -/
theorem Scopes.Agrees.trace {scopes : Scopes} {history : History} (h : scopes.Agrees history)
    (requests : List ScopeRequest) :
    List.Forall₂ (fun step step' => step.1 = step'.1 ∧ step.2.Agrees step'.2)
      (ScopeRequest.trace Scopes.serve requests scopes)
      (ScopeRequest.trace History.serve requests history) := by
  induction requests generalizing scopes history with
  | nil => exact .nil
  | cons request requests ih => exact .cons (h.serve request) (ih (h.serve request).2)

/-- **The scopes are the history, scope by scope.** Whatever is asked of them, from the initial
scopes and the initial history on, after every request both have given the same answer, stand at the
same depth and hold the same bindings at every depth; and no scope binds a name twice. -/
theorem trace_refines_history (requests : List ScopeRequest) :
    (ScopeRequest.trace Scopes.serve requests .initial).map
        (fun step => (step.1, step.2.depth, step.2.bindings)) =
      (ScopeRequest.trace History.serve requests .initial).map
        (fun step => (step.1, step.2.depth, step.2.bindings)) ∧
    ∀ answer scopes, (answer, scopes) ∈ ScopeRequest.trace Scopes.serve requests .initial →
      ∀ scope ∈ scopes.toList, scope.names.Nodup := by
  have hsteps := Scopes.agrees_initial.trace requests
  generalize ScopeRequest.trace Scopes.serve requests .initial = steps,
    ScopeRequest.trace History.serve requests .initial = steps' at hsteps ⊢
  induction hsteps with
  | nil => exact ⟨rfl, by simp⟩
  | cons hstep _ ih =>
    obtain ⟨hanswer, hagrees⟩ := hstep
    refine ⟨?_, fun answer scopes hmem => ?_⟩
    · rw [List.map_cons, List.map_cons, ih.1, hanswer, hagrees.bindings_eq, hagrees.depth]
    · rcases List.mem_cons.mp hmem with rfl | hmem
      · exact hagrees.shows.nodup_names
      · exact ih.2 answer scopes hmem

/-- A name is bound, shadowed by one without a value, which is looked up and closed, and looked up
again. -/
def shadowing : List ScopeRequest :=
  let name : Token := ⟨.identifier, "a", none, 1⟩
  [.define "a" (.boolean true), .push, .declare "a", .get name, .pop, .get name]

theorem trace_refines_history_shadowing :
    (ScopeRequest.trace Scopes.serve shadowing .initial).map Prod.fst =
      [.ok none, .ok none, .ok none,
        .error ⟨⟨.identifier, "a", none, 1⟩, .uninitializedVariable "a"⟩, .ok none,
        .ok (some (.boolean true))] ∧
    ∀ scope ∈ (Scopes.initial.define "a" (.boolean true)).toList, scope.names.Nodup := by
  obtain ⟨hsame, hdistinct⟩ := trace_refines_history shadowing
  have hanswers := congrArg (List.map Prod.fst) hsame
  rw [List.map_map, List.map_map] at hanswers
  refine ⟨Eq.trans hanswers (by decide +kernel), hdistinct (.ok none) _ List.mem_cons_self⟩

end LoxLang
