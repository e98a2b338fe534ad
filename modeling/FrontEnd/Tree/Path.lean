import FrontEnd.Token
/-!
# Paths
-/
namespace FrontEnd

/-- A name such as `x`, `self` or `Color::Red`: words with `::` between them. -/
structure Path where
  segments : List Token
  span : Span
deriving DecidableEq

def Path.ofToken (t : Token) : Path := ⟨[t], t.span⟩

def Path.text (p : Path) : String := "::".intercalate (p.segments.map Token.value)

end FrontEnd
