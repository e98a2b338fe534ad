import FrontEnd.Parse
/-!
# Parsing step by step

A session reads one list of tokens piece by piece. It keeps the state between the pieces, also after
an error, and its user may enter and leave levels of nesting and scopes, and allow struct literals
or not.
-/
namespace FrontEnd

/-- A reading in progress. -/
structure Session where
  options : ParseOptions
  state : ParseState

namespace Session

def start (tokens : List Token) (file : String) (options : ParseOptions := {}) : Session :=
  ⟨options, .initial tokens file⟩

def read {α : Type} (s : Session) (p : Phrase α) : Except SyntaxError α × Session :=
  match p.read s.options s.state with
  | .ok a state => (.ok a, { s with state })
  | .error e state => (.error e, { s with state })

def eat (s : Session) (k : TokenKind) : Bool × Session :=
  let (eaten, cursor) := s.state.cursor.eat k
  (eaten, { s with state := { s.state with cursor } })

def hasTokens (s : Session) : Bool := s.state.cursor.kind ≠ .eof

def enter (s : Session) : Except SyntaxError Unit × Session :=
  if s.state.depth < s.options.maxDepth then
    (.ok (), { s with state := { s.state with depth := s.state.depth + 1 } })
  else
    (.error ⟨.nestingTooDeep s.options.maxDepth, s.state.cursor.position⟩, s)

def leave (s : Session) : Session :=
  { s with state := { s.state with depth := s.state.depth - 1 } }

def allowStructLiterals (s : Session) (allowed : Bool) : Session :=
  { s with state := { s.state with structLiterals := allowed } }

def pushScope (s : Session) : Session := { s with state := { s.state with toNames := s.state.push } }

def popScope (s : Session) : Session := { s with state := { s.state with toNames := s.state.pop } }

def declare (s : Session) (symbol : Symbol) : Session :=
  { s with state := { s.state with toNames := s.state.declare symbol s.state.cursor.position } }

def bind (s : Session) (symbol : Symbol) : Session :=
  { s with state := { s.state with toNames := s.state.bind symbol } }

end Session

end FrontEnd
