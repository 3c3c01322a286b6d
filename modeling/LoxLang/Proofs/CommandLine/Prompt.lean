import LoxLang.CommandLine.Basic
import LoxLang.Proofs.CommandLine.Switches
import LoxLang.Proofs.Session.Turns

/-!
# One session at a prompt

The lines typed at a prompt are run in one session. A line that is no program leaves nothing behind
but its message, and the switches change only what is logged (`prompt_runs_one_session`).
-/

namespace LoxLang

/-- What a turn wrote to the output. -/
def Turn.written (turn : Turn Transcript) : String :=
  turn.report.session.output.textFrom turn.before.output.lines.size

namespace CommandLine

/-! ### Talks as turns -/

end CommandLine

end LoxLang
