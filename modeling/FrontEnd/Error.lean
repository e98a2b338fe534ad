import FrontEnd.Source
import FrontEnd.Text.Quoted
/-!
# Syntax errors

What was wrong and where. Reading stops at the first one; nothing is collected.
-/
namespace FrontEnd

namespace SyntaxError

/-- What was wrong. `expected` is the description of what should have stood there. -/
inductive Cause
  | unrecognisedToken (token : String)
  | unexpectedToken (expected found : String)
  | unexpectedEndOfInput (expected : String)
  | nestingTooDeep (limit : Nat)
deriving DecidableEq

def Cause.name : Cause → String
  | .unrecognisedToken _ => "UnrecognisedToken"
  | .unexpectedToken _ _ => "UnexpectedToken"
  | .unexpectedEndOfInput _ => "UnexpectedEndOfInput"
  | .nestingTooDeep _ => "NestingTooDeep"

def Cause.message : Cause → String
  | .unrecognisedToken token => "unrecognised token: " ++ Text.quoted token
  | .unexpectedToken expected found => s!"expected {expected}, found " ++ Text.quoted found
  | .unexpectedEndOfInput expected => s!"expected {expected}, found end of input"
  | .nestingTooDeep limit => s!"nesting deeper than {limit} levels"

/-- Advice for the author of the text. A token that is none has no advice; a missing semicolon has
advice of its own. -/
def Cause.tip? : Cause → Option String
  | .unrecognisedToken _ => none
  | .unexpectedToken expected found =>
    if expected = "`;`" then some s!"Unexpected token: `{found}`, did you miss a semicolon?"
    else some s!"Expected {expected}, found `{found}`"
  | .unexpectedEndOfInput expected => some s!"Input ended while looking for {expected}"
  | .nestingTooDeep limit =>
    some s!"Expression nesting exceeds the limit of {limit}, try splitting it up"

end SyntaxError

/-- A cause and the place where reading stopped. -/
structure SyntaxError where
  cause : SyntaxError.Cause
  position : Position
deriving DecidableEq

def SyntaxError.message (e : SyntaxError) : String :=
  e.cause.message ++ " at " ++ e.position.display

end FrontEnd
