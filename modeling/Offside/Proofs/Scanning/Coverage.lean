import Offside.Diagnostic.Report
import Offside.Proofs.Scanning.Places

/-!
# What a scan covers

A source without reports consists of blanks, comments, remarks and the lexemes of its tokens. What
stands behind a remark on its last line is lost with the remark, if the remark goes over several
lines. A report about a token points at its first character, unless tabs or carriage returns before
it have made its column another one than the number of characters before it.
-/

namespace Offside

open List

namespace Scan

variable {settings : Settings}

end Scan

/-! ## Stretches of characters -/

namespace Text

end Text

theorem Token.IsLexeme.head {token : Token} {text : List Char} (isLexeme : token.IsLexeme text) :
    ∃ c rest, text = c :: rest ∧ c ≠ '\n' := by
  obtain ⟨c, behind, rfl, isToken⟩ := isLexeme
  obtain ⟨whole, some, -⟩ := Lexeme.cutOff_next c behind
  obtain ⟨first, rest, same⟩ := exists_cons_of_ne_nil some
  rw [same, cons_append, cons_eq_cons] at whole
  refine ⟨c, rest, whole.1 ▸ same, ?_⟩
  rintro rfl
  have unknown : Lexeme.next '\n' behind = (⟨.unknown, ['\n']⟩, behind) := rfl
  rw [unknown] at isToken
  cases isToken

namespace Scan

end Scan

end Offside
