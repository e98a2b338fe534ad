import FrontEnd.Text.DefaultIgnorable
import FrontEnd.Text.GraphemeExtend
import FrontEnd.Text.Unprintable
/-!
# Quoted text

Source text inside a message is quoted, so that the message stays on one line and shows every
character: the quote in use and the backslash are escaped, and so is a character that has no visible
form, is ignored when shown, or would attach to the one before it.
-/
namespace FrontEnd.Text

def escapeScalar (c : Char) : List Char :=
  "\\u\x7b".toList ++ Nat.toDigits 16 c.toNat ++ ['\x7d']

/-- Whether a character is drawn on the one before it. The two halfwidth sound marks extend that one
too, but they are letters with a place of their own. -/
def attaches (c : Char) : Bool := isGraphemeExtend c && c ≠ '\uff9e' && c ≠ '\uff9f'

/-- Whether a character would not be seen as itself between quotes. -/
def isConcealed (c : Char) : Bool := attaches c || isDefaultIgnorable c || isUnprintable c

def escapeChar (quote c : Char) : List Char :=
  if c = '\x00' then ['\\', '0']
  else if c = '\t' then ['\\', 't']
  else if c = '\r' then ['\\', 'r']
  else if c = '\n' then ['\\', 'n']
  else if c = quote ∨ c = '\\' then ['\\', c]
  else if isConcealed c then escapeScalar c
  else [c]

def quoteWith (quote : Char) (cs : List Char) : String :=
  String.ofList (quote :: cs.flatMap (escapeChar quote) ++ [quote])

def quoted (s : String) : String := quoteWith '"' s.toList

def quotedChar (c : Char) : String := quoteWith '\x27' [c]

end FrontEnd.Text
