import FrontEnd.Error
import FrontEnd.Lexeme
import FrontEnd.Token
/-!
# From text to tokens

The scanner takes the longest lexeme at each place, skips blanks and comments, and closes the list
of tokens with one of kind `eof`. Places are counted in bytes of the UTF-8 text.
-/
namespace FrontEnd

def byteLength : List Char → Nat
  | [] => 0
  | c :: cs => c.utf8Size + byteLength cs

namespace Token

def spanAt (file : String) (offset n : Nat) : Span :=
  ⟨.ofByte offset file, .ofByte (offset + n) file⟩

def endMark (file : String) (offset : Nat) : Token := ⟨.eof, "EOF", spanAt file offset 0⟩

/-- The token of a lexeme, if its class has tokens. -/
def ofLexeme? (file : String) (offset : Nat) (l : Lexeme) (text : List Char) : Option Token :=
  (l.kind? (String.ofList text)).map fun kind =>
    ⟨kind, String.ofList text, spanAt file offset (byteLength text)⟩

/-- The tokens of a text that begins at `offset`, where the first `inside` characters belong to a
lexeme already taken. -/
def scanFrom (file : String) : (inside offset : Nat) → List Char → Except SyntaxError (List Token)
  | _, offset, [] => .ok [endMark file offset]
  | inside + 1, offset, c :: cs => scanFrom file inside (offset + c.utf8Size) cs
  | 0, offset, c :: cs =>
    match Lexeme.longest (c :: cs) with
    | none => .error ⟨.unrecognisedToken c.toString, .ofByte offset file⟩
    | some (l, n) => do
      let rest ← scanFrom file (n - 1) (offset + c.utf8Size) cs
      return (ofLexeme? file offset l ((c :: cs).take n)).toList ++ rest

/-- The tokens of a source text. A text without a file name is said to come from `shell`. -/
def scan (source : String) (file : String := "shell") : Except SyntaxError (List Token) :=
  scanFrom file 0 0 source.toList

end Token

end FrontEnd
