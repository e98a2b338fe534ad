import FrontEnd.Grammar.Tier
import FrontEnd.Scope.Symbol
/-!
# Phrases

A phrase says how to read a piece of a program: which tokens to look at and to take, which names to
declare, where to look no further and fail. It is data, a tree of steps in which each step chooses
the next by what it found, and it does nothing until it is run (`Parse`). So what holds of every
step holds of every phrase, whatever the grammar, by one induction.

A phrase refers to the recursive parts of the grammar by their `Goal`, and each goal reached is one
level of nesting. The phrases themselves are not recursive.
-/
namespace FrontEnd

/-- A recursive part of the grammar. Reading one takes one level of nesting. -/
inductive Goal
  /-- An expression whose operators all bind tighter than a tier. -/
  | expr (above : Tier)
  /-- An expression that ends in a block, where a statement may stand. -/
  | blockLike
  | block
  /-- A statement of a block, or the expression that is its value. -/
  | element
  /-- An `if` after `else`. -/
  | elseIf
  /-- An arm of a `match`. -/
  | arm
  | ty
  | pattern
deriving DecidableEq

/-- A part of a block: a statement, or the expression at the end that is the block's value. -/
inductive Element
  | statement (statement : Stmt)
  | tail (expr : Expr)

abbrev Goal.Tree : Goal → Type
  | .expr _ => Expr
  | .blockLike => Expr
  | .block => Block
  | .element => Element
  | .elseIf => Conditional
  | .arm => Arm
  | .ty => Ty
  | .pattern => Pattern

/-- The tokens whose kinds a phrase can ask for: the current one and the two after it. -/
inductive Lookahead
  | current | next | afterNext
deriving DecidableEq

def Lookahead.distance : Lookahead → Nat
  | current => 0
  | next => 1
  | afterNext => 2

/-- A single step. None of them fails. -/
inductive Act : Type → Type
  /-- The kind of a token ahead. -/
  | kind (ahead : Lookahead) : Act TokenKind
  /-- The current token, which stays current. -/
  | current : Act (Option Token)
  /-- The current token, which is passed. -/
  | take : Act (Option Token)
  /-- The span from the start of another to the end of the token passed last. -/
  | spanFrom (start : Span) : Act Span
  /-- Where the current token starts. -/
  | position : Act Position
  /-- Whether a `{` after a path opens a struct literal here. -/
  | structLiterals : Act Bool
  /-- Whether a pattern that is just this name means a constant. -/
  | isConstant (name : String) : Act Bool
  /-- Declares a symbol, found at a place, in the innermost scope. A second one of the same key is
  noted and has no effect. -/
  | declare (symbol : Symbol) (position : Position) : Act Unit
  /-- Stores a symbol in the innermost scope in place of one of the same key. -/
  | bind (symbol : Symbol) : Act Unit

/-- A phrase that yields a value of the type. -/
inductive Phrase : Type → Type 1
  /-- Reads nothing more. -/
  | done {α : Type} (value : α) : Phrase α
  /-- Fails: the current token is not what is expected. -/
  | fail {α : Type} (expected : String) : Phrase α
  /-- A step, and how to go on from its result. -/
  | act {α β : Type} (act : Act β) (next : β → Phrase α) : Phrase α
  /-- A goal, one level deeper. -/
  | nested {α : Type} (goal : Goal) (next : goal.Tree → Phrase α) : Phrase α
  /-- A phrase in a scope of its own, which closes after it. -/
  | enclosed {α β : Type} (body : Phrase β) (next : β → Phrase α) : Phrase α
  /-- A phrase with struct literals allowed or not. -/
  | structLiterals {α β : Type} (allowed : Bool) (body : Phrase β) (next : β → Phrase α) : Phrase α
  /-- A phrase again and again until it yields nothing, or reads nothing. -/
  | many {α β : Type} (round : Phrase (Option β)) (next : List β → Phrase α) : Phrase α

namespace Phrase

def andThen {α β : Type} : Phrase α → (α → Phrase β) → Phrase β
  | .done value, f => f value
  | .fail expected, _ => .fail expected
  | .act a next, f => .act a fun b => (next b).andThen f
  | .nested g next, f => .nested g fun t => (next t).andThen f
  | .enclosed body next, f => .enclosed body fun b => (next b).andThen f
  | .structLiterals allowed body next, f => .structLiterals allowed body fun b => (next b).andThen f
  | .many round next, f => .many round fun bs => (next bs).andThen f

instance : Monad Phrase where
  pure := .done
  bind := .andThen

@[simp] theorem pure_eq_done {α : Type} (value : α) : (pure value : Phrase α) = .done value := rfl

@[simp] theorem bind_eq_andThen {α β : Type} (p : Phrase α) (f : α → Phrase β) :
    p >>= f = p.andThen f := rfl

theorem andThen_done {α : Type} (p : Phrase α) : p.andThen .done = p := by
  induction p <;> simp_all [andThen]

theorem andThen_assoc {α β γ : Type} (p : Phrase α) (f : α → Phrase β) (g : β → Phrase γ) :
    (p.andThen f).andThen g = p.andThen fun a => (f a).andThen g := by
  induction p <;> simp_all [andThen]

instance : LawfulMonad Phrase :=
  LawfulMonad.mk' Phrase (fun p => andThen_done p) (fun _ _ => rfl) andThen_assoc

def kind : Phrase TokenKind := .act (.kind .current) .done

def nextKind : Phrase TokenKind := .act (.kind .next) .done

def kindAfterNext : Phrase TokenKind := .act (.kind .afterNext) .done

def current : Phrase Token := .act .current fun
  | some t => .done t
  | none => .fail "a token"

def take : Phrase Token := .act .take fun
  | some t => .done t
  | none => .fail "a token"

def spanFrom (start : Span) : Phrase Span := .act (.spanFrom start) .done

def position : Phrase Position := .act .position .done

def allowsStructLiterals : Phrase Bool := .act .structLiterals .done

def isConstant (name : String) : Phrase Bool := .act (.isConstant name) .done

def declare (symbol : Symbol) (position : Position) : Phrase Unit :=
  .act (.declare symbol position) .done

def bindAll : List Symbol → Phrase Unit
  | [] => .done ()
  | s :: ss => .act (.bind s) fun _ => bindAll ss

def goal (g : Goal) : Phrase g.Tree := .nested g .done

def inScope {α : Type} (p : Phrase α) : Phrase α := .enclosed p .done

def withStructLiterals {α : Type} (allowed : Bool) (p : Phrase α) : Phrase α :=
  .structLiterals allowed p .done

def repeated {α : Type} (round : Phrase (Option α)) : Phrase (List α) := .many round .done

/-- Takes the current token if it is of the kind, and says whether it did. -/
def eat (k : TokenKind) : Phrase Bool := do
  if (← kind) = k then
    let _ ← take
    return true
  else
    return false

def expect (k : TokenKind) : Phrase Token := do
  if (← kind) = k then take else fail k.describe

def expectOneOf (ks : List TokenKind) (expected : String) : Phrase Token :=
  .act .current fun
    | some t => if t.kind ∈ ks then take else fail expected
    | none => fail expected

def after? {α : Type} (k : TokenKind) (p : Phrase α) : Phrase (Option α) := do
  if ← eat k then some <$> p else return none

/-- A phrase as often as it takes to reach a token of the kind, which is left. -/
def untilKind {α : Type} (close : TokenKind) (p : Phrase α) : Phrase (List α) :=
  repeated do
    if (← kind) = close then return none else some <$> p

def eachAfter {α : Type} (separator : TokenKind) (p : Phrase α) : Phrase (List α) :=
  repeated (after? separator p)

/-- What follows the first element of a list with commas: elements with a comma before each. The
last comma may stand right before the token that closes the list. -/
def afterFirst {α : Type} (close : TokenKind) (p : Phrase α) : Phrase (List α) :=
  repeated do
    if ← eat .comma then
      if (← kind) = close then return none else some <$> p
    else
      return none

/-- Elements with commas between them, and perhaps one after the last. The token that closes the
list is left. -/
def commaList {α : Type} (close : TokenKind) (p : Phrase α) : Phrase (List α) := do
  if (← kind) = close then
    return []
  else
    let first ← p
    return first :: (← afterFirst close p)

/-- One layer of reference after `&`, two after `&&`: the outer one shared, the inner one mutable if
`mut` follows. All layers cover the same text. -/
def referenceLayers {α : Type} (layer : Bool → α → Span → α) (spanOf : α → Span) (p : Phrase α) :
    Phrase α := do
  let mark ← take
  let mutable ← eat .kwMut
  let target ← p
  let span := mark.span.to (spanOf target)
  let inner := layer mutable target span
  return if mark.kind = .andAnd then layer false inner span else inner

end Phrase

end FrontEnd
