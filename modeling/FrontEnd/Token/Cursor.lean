import FrontEnd.Error
import FrontEnd.Token
/-!
# Cursors

A cursor stands between the tokens it has passed and those ahead of it. Past the last token the
input goes on as if it held nothing but ends: the kind there is `eof`, and such an end can be passed
as often as one likes.
-/
namespace FrontEnd

/-- A place in a list of tokens. -/
structure Cursor where
  /-- The tokens already passed, the latest first. -/
  passed : List Token
  /-- The tokens not yet passed, the current one first. -/
  ahead : List Token
  /-- How many ends were passed after the last token. -/
  beyond : Nat
  /-- The file that the tokens are said to come from. -/
  file : String

namespace Cursor

def ofList (tokens : List Token) (file : String) : Cursor := ⟨[], tokens, 0, file⟩

def tokens (c : Cursor) : List Token := c.passed.reverse ++ c.ahead

/-- How far the cursor has moved from the first token. -/
def index (c : Cursor) : Nat := c.passed.length + c.beyond

def position (c : Cursor) : Position :=
  match c.ahead, c.passed with
  | t :: _, _ => t.span.start
  | [], t :: _ => t.span.stop
  | [], [] => .origin c.file

def ahead? (c : Cursor) (n : Nat) : Option Token := c.ahead[n]?

/-- The kind `n` places after the current token, `eof` where there is none. -/
def kindAhead (c : Cursor) (n : Nat) : TokenKind := ((c.ahead? n).map Token.kind).getD .eof

def kind (c : Cursor) : TokenKind := c.kindAhead 0

/-- The token passed last. There is none before the first token or after an end. -/
def previous? (c : Cursor) : Option Token := if c.beyond = 0 then c.passed.head? else none

def spanFrom (c : Cursor) (start : Span) : Span :=
  match c.previous? with
  | some t => start.to t.span
  | none => start

def noToken (c : Cursor) : SyntaxError := ⟨.unexpectedEndOfInput "a token", c.position⟩

def unexpected (c : Cursor) (expected : String) : SyntaxError :=
  match c.ahead with
  | t :: _ =>
    if t.kind = .eof then ⟨.unexpectedEndOfInput expected, c.position⟩
    else ⟨.unexpectedToken expected t.value, c.position⟩
  | [] => ⟨.unexpectedEndOfInput expected, c.position⟩

def peekAhead (c : Cursor) (n : Nat) : Except SyntaxError Token :=
  match c.ahead? n with
  | some t => .ok t
  | none => .error c.noToken

def peek (c : Cursor) : Except SyntaxError Token := c.peekAhead 0

/-- Passes the current token, or an end where there is none. -/
def advance (c : Cursor) : Cursor :=
  match c.ahead with
  | t :: ts => { c with passed := t :: c.passed, ahead := ts }
  | [] => { c with beyond := c.beyond + 1 }

def consume (c : Cursor) : Except SyntaxError (Token × Cursor) :=
  match c.peek with
  | .ok t => .ok (t, c.advance)
  | .error e => .error e

def eat (c : Cursor) (kind : TokenKind) : Bool × Cursor :=
  if c.kind = kind then (true, c.advance) else (false, c)

def eatValue (c : Cursor) (kind : TokenKind) (value : String) : Bool × Cursor :=
  match c.ahead with
  | t :: _ => if t.kind = kind ∧ t.value = value then (true, c.advance) else (false, c)
  | [] => (false, c)

/-- No move changes the list of tokens. -/
@[simp] theorem tokens_advance (c : Cursor) : c.advance.tokens = c.tokens := by
  rcases c with ⟨passed, _ | ⟨t, ts⟩, beyond, file⟩ <;> simp [advance, tokens]

/-- Each move goes one place on. -/
@[simp] theorem index_advance (c : Cursor) : c.advance.index = c.index + 1 := by
  rcases c with ⟨passed, _ | ⟨t, ts⟩, beyond, file⟩ <;> simp [advance, index] <;> omega

theorem ahead_advance (c : Cursor) : c.advance.ahead = c.ahead.tail := by
  obtain ⟨passed, _ | ⟨t, ts⟩, beyond, file⟩ := c <;> rfl

end Cursor

end FrontEnd
