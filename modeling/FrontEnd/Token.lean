import FrontEnd.Source
import FrontEnd.Token.Kind
/-!
# Tokens
-/
namespace FrontEnd

/-- A classified piece of source text. `value` is the text as written, never decoded. -/
structure Token where
  kind : TokenKind
  value : String
  span : Span
deriving DecidableEq

end FrontEnd
