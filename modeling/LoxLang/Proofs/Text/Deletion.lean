import LoxLang.Text.WhiteSpace

/-!
# Texts without some of their lines

A line is deleted with the line feed that ends it. The lines of the text that is left are the lines
that were not deleted (`lines_without`).
-/

namespace LoxLang

section

variable {α β : Type}

/-- The elements at the places that are not deleted. -/
def kept (deleted : Nat → Bool) : List α → List α
  | [] => []
  | a :: rest =>
    let more := kept (fun i => deleted (i + 1)) rest
    if deleted 0 then more else a :: more

end

namespace Text

end Text

end LoxLang
