import FrontEnd.Text.Blank
import FrontEnd.Token.Kind
/-!
# Lexemes

The classes of text that the scanner tells apart. A class says how many characters at the front of a
text belong to it, none if the text does not begin with a lexeme of the class. Of all classes the
one with the longest lexeme is taken; `longest` decides a draw for the class that stands first in
`Lexeme.classes`.
-/
namespace FrontEnd

/-- The number of characters before the first that fails the test. -/
def runLength (p : Char → Bool) (cs : List Char) : Nat := (cs.takeWhile p).length

/-- A class of lexemes. The first three are skipped, the others become tokens. -/
inductive Lexeme
  | blank
  | lineComment
  | blockComment
  | word
  | integer
  | char
  | string
  | operator (spelling : String) (kind : TokenKind)
deriving DecidableEq

namespace Lexeme

def isWordStart (c : Char) : Bool := c.isAlpha || c = '_'

def isWordPart (c : Char) : Bool := c.isAlphanum || c = '_'

def isDecimalPart (c : Char) : Bool := c.isDigit || c = '_'

def isHexDigit (c : Char) : Bool :=
  c.isDigit || ('a' ≤ c && c ≤ 'f') || ('A' ≤ c && c ≤ 'F')

def isHexPart (c : Char) : Bool := isHexDigit c || c = '_'

def lineCommentLength : List Char → Nat
  | '/' :: '/' :: cs => 2 + runLength (· ≠ '\n') cs
  | _ => 0

def throughCommentEnd : List Char → Option Nat
  | [] => none
  | [_] => none
  | c :: d :: cs =>
    if c = '*' ∧ d = '/' then some 2 else (· + 1) <$> throughCommentEnd (d :: cs)

/-- A comment from its opening through the first `*/` after it. A comment that does not end is no
lexeme. -/
def blockCommentLength : List Char → Nat
  | '/' :: '*' :: cs => ((2 + ·) <$> throughCommentEnd cs).getD 0
  | _ => 0

def wordLength : List Char → Nat
  | [] => 0
  | c :: cs => if isWordStart c then 1 + runLength isWordPart cs else 0

/-- Two characters that name a base and the digits `ds` after them; without digits there is no base,
and the zero that seemed to begin it is a decimal integer by itself. -/
def basedLength (isPart : Char → Bool) (ds : List Char) : Nat :=
  if runLength isPart ds = 0 then 1 else 2 + runLength isPart ds

def digitsLength : List Char → Nat
  | '0' :: 'b' :: ds => basedLength isDecimalPart ds
  | '0' :: 'o' :: ds => basedLength isDecimalPart ds
  | '0' :: 'x' :: ds => basedLength isHexPart ds
  | c :: cs => if c.isDigit then 1 + runLength isDecimalPart cs else 0
  | [] => 0

def suffixLength : List Char → Nat
  | '8' :: _ => 2
  | '1' :: '6' :: _ => 3
  | '3' :: '2' :: _ => 3
  | '6' :: '4' :: _ => 3
  | '1' :: '2' :: '8' :: _ => 4
  | 's' :: 'i' :: 'z' :: 'e' :: _ => 5
  | _ => 0

def integerLength (cs : List Char) : Nat :=
  let n := digitsLength cs
  match cs.drop n with
  | 'i' :: rest => if n = 0 then 0 else n + suffixLength rest
  | 'u' :: rest => if n = 0 then 0 else n + suffixLength rest
  | _ => n

def charLength : List Char → Nat
  | '\x27' :: '\\' :: 'x' :: a :: b :: '\x27' :: _ =>
    if isHexDigit a && isHexDigit b then 6 else if a = '\x27' then 4 else 0
  | '\x27' :: '\\' :: c :: '\x27' :: _ => if c = '\n' then 0 else 4
  | '\x27' :: c :: '\x27' :: _ => if c = '\x27' ∨ c = '\\' ∨ c = '\n' then 0 else 3
  | _ => 0

/-- The number of characters through the quote that ends a string: the first that no backslash
stands before, where a backslash takes the next character with it. -/
def throughQuote : List Char → Option Nat
  | [] => none
  | ['\\'] => none
  | '\\' :: _ :: cs => (· + 2) <$> throughQuote cs
  | c :: cs => if c = '"' then some 1 else (· + 1) <$> throughQuote cs

def stringLength : List Char → Nat
  | '"' :: cs => ((1 + ·) <$> throughQuote cs).getD 0
  | _ => 0

/-- The number of characters at the front of `cs` that the class takes, 0 if there is no lexeme of
the class there. -/
def length : Lexeme → List Char → Nat
  | blank, cs => runLength Text.isBlank cs
  | lineComment, cs => lineCommentLength cs
  | blockComment, cs => blockCommentLength cs
  | word, cs => wordLength cs
  | integer, cs => integerLength cs
  | char, cs => charLength cs
  | string, cs => stringLength cs
  | operator spelling _, cs => if spelling.toList.isPrefixOf cs then spelling.length else 0

/-- The kind of token that a lexeme with this text becomes, none for blanks and comments. -/
def kind? : Lexeme → String → Option TokenKind
  | blank, _ => none
  | lineComment, _ => none
  | blockComment, _ => none
  | word, text => some (.ofWord text)
  | integer, _ => some .integer
  | char, _ => some .char
  | string, _ => some .string
  | operator _ kind, _ => some kind

def classes : List Lexeme :=
  [blank, lineComment, blockComment, word, integer, char, string] ++
    TokenKind.operators.map fun (spelling, kind) => operator spelling kind

/-- The first of some classes whose lexeme is longest, with its length, if any has a lexeme. -/
def longestOf (cs : List Char) : List Lexeme → Option (Lexeme × Nat)
  | [] => none
  | l :: ls =>
    match longestOf cs ls with
    | none => if l.length cs = 0 then none else some (l, l.length cs)
    | some (m, n) =>
      if l.length cs < n then some (m, n) else some (l, l.length cs)

/-- The class with the longest lexeme at the front of a text, with its length. -/
def longest (cs : List Char) : Option (Lexeme × Nat) := longestOf cs classes

end Lexeme

end FrontEnd
