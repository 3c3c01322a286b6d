/-!
# Where a program writes

A program writes lines to a `Sink`, which may refuse a line and give a reason. What a
refusing sink does with the line is its own affair, so its state may change all the same.
A `Transcript` keeps the lines; it may be limited to a number of lines and then refuses
every further one.
-/

namespace LoxLang

/-- Something that takes lines. -/
class Sink (σ : Type) where
  /-- Takes a line, or refuses it with a reason. -/
  writeLine : String → σ → Except String Unit × σ

/-- The lines written so far, and how many there may be. -/
structure Transcript where
  lines : Array String
  limit : Option Nat
  deriving DecidableEq

namespace Transcript

/-- An empty transcript without a limit. -/
def unlimited : Transcript := ⟨#[], none⟩

/-- An empty transcript that takes so many lines. -/
def limitedTo (limit : Nat) : Transcript := ⟨#[], some limit⟩

/-- No further line is taken. -/
def isFull (transcript : Transcript) : Bool :=
  match transcript.limit with
  | none => false
  | some limit => limit ≤ transcript.lines.size

/-- Adds a line while there is room. -/
def write (line : String) (transcript : Transcript) : Except String Unit × Transcript :=
  if transcript.isFull then (.error "closed", transcript)
  else (.ok (), { transcript with lines := transcript.lines.push line })

instance : Sink Transcript := ⟨write⟩

/-- The text of lines, each with its line feed. -/
def textOf (lines : List String) : String := String.join (lines.map (· ++ "\n"))

/-- Everything written. -/
def text (transcript : Transcript) : String := textOf transcript.lines.toList

/-- What was written after the first so many lines. -/
def textFrom (transcript : Transcript) (count : Nat) : String :=
  textOf (transcript.lines.toList.drop count)

end Transcript

end LoxLang
