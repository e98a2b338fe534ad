import FrontEnd.Grammar.Rules
import FrontEnd.Scope.Names
import FrontEnd.Token.Cursor
import FrontEnd.Token.Scan
/-!
# Parsing

Running a phrase moves a cursor over tokens and keeps the scopes; it ends with what the phrase
yields or with an error, and in either case with the state where it stopped. The state also counts
the levels of nesting, so that reading ends however the rules refer to each other, and knows whether
struct literals are allowed.
-/
namespace FrontEnd

/-- What may vary between two readings of the same tokens. -/
structure ParseOptions where
  /-- The number of levels that expressions, blocks, types and patterns may nest. -/
  maxDepth : Nat := 256
  /-- Whether a pattern that is just a name is looked up to see if it means a constant. -/
  resolvePatterns : Bool := true
deriving DecidableEq

structure ParseState extends Names where
  cursor : Cursor
  /-- How many levels of nesting have been entered and not been left. -/
  depth : Nat
  /-- Whether a brace after a path opens a struct literal. -/
  structLiterals : Bool

def ParseState.initial (tokens : List Token) (file : String) : ParseState :=
  ⟨.empty, .ofList tokens file, 0, true⟩

def Act.run {α : Type} (options : ParseOptions) : Act α → ParseState → α × ParseState
  | .kind ahead, s => (s.cursor.kindAhead ahead.distance, s)
  | .current, s => (s.cursor.ahead? 0, s)
  | .take, s =>
    match s.cursor.ahead? 0 with
    | some t => (some t, { s with cursor := s.cursor.advance })
    | none => (none, s)
  | .spanFrom start, s => (s.cursor.spanFrom start, s)
  | .position, s => (s.cursor.position, s)
  | .structLiterals, s => (s.structLiterals, s)
  | .isConstant name, s => (options.resolvePatterns && s.isConstant name, s)
  | .declare symbol place, s => ((), { s with toNames := s.declare symbol place })
  | .bind symbol, s => ((), { s with toNames := s.bind symbol })

/-- What a run does: from a state to a value or an error, and the state where it stopped. -/
abbrev Reader := EStateM SyntaxError ParseState

namespace Reader

def fail {α : Type} (expected : String) : Reader α := fun s =>
  .error (s.cursor.unexpected expected) s

def tooDeep {α : Type} (limit : Nat) : Reader α := fun s =>
  .error ⟨.nestingTooDeep limit, s.cursor.position⟩ s

/-- Runs between a change of the state and its undoing, which happens whatever comes of the run. -/
def between {α : Type} (before after : ParseState → ParseState) (r : Reader α) : Reader α := fun s =>
  match r (before s) with
  | .ok a s => .ok a (after s)
  | .error e s => .error e (after s)

def nested {α : Type} (limit : Nat) (r : Reader α) : Reader α := fun s =>
  if s.depth < limit then
    between (fun s => { s with depth := s.depth + 1 }) (fun s => { s with depth := s.depth - 1 }) r s
  else
    tooDeep limit s

def inScope {α : Type} : Reader α → Reader α :=
  between (fun s => { s with toNames := s.push }) (fun s => { s with toNames := s.pop })

def withStructLiterals {α : Type} (allowed : Bool) (r : Reader α) : Reader α := fun s =>
  between (fun s => { s with structLiterals := allowed })
    (fun s' => { s' with structLiterals := s.structLiterals }) r s

/-- Runs a round at most `fuel` times, until it yields nothing or no token was passed. -/
def collect {α : Type} (round : Reader (Option α)) : (fuel : Nat) → Reader (List α)
  | 0 => pure []
  | fuel + 1 => fun s =>
    match round s with
    | .ok (some a) s' =>
      if s'.cursor.ahead.length < s.cursor.ahead.length then
        (do return a :: (← collect round fuel)) s'
      else
        .ok [a] s'
    | .ok none s' => .ok [] s'
    | .error e s' => .error e s'

/-- Runs a round until it yields nothing or no token was passed. Every other round passes a token,
so there are no more rounds than tokens, and one. -/
def many {α : Type} (round : Reader (Option α)) : Reader (List α) := fun s =>
  collect round (s.cursor.ahead.length + 1) s

end Reader

/-- Runs a phrase; `below` reads the goals in it. -/
def Phrase.run (options : ParseOptions) (below : (g : Goal) → Reader g.Tree) {α : Type} :
    Phrase α → Reader α
  | .done value => pure value
  | .fail expected => Reader.fail expected
  | .act a next => fun s =>
    let (b, s) := a.run options s
    (next b).run options below s
  | .nested g next => do (next (← below g)).run options below
  | .enclosed body next => do (next (← Reader.inScope (body.run options below))).run options below
  | .structLiterals allowed body next => do
    (next (← Reader.withStructLiterals allowed (body.run options below))).run options below
  | .many round next => do (next (← Reader.many (round.run options below))).run options below

/-- Reads a goal one level deeper. Every goal takes a level, so there is no more to do once as many
goals as there are levels have been entered in each other. -/
def Goal.read (options : ParseOptions) : (fuel : Nat) → (g : Goal) → Reader g.Tree
  | 0, _ => Reader.tooDeep options.maxDepth
  | fuel + 1, g =>
    Reader.nested options.maxDepth ((Grammar.rule g).run options (Goal.read options fuel))

/-- Runs a phrase and all goals in it. -/
def Phrase.read {α : Type} (p : Phrase α) (options : ParseOptions) : Reader α :=
  p.run options (Goal.read options options.maxDepth)

def parse (tokens : List Token) (file : String) (options : ParseOptions := {}) :
    EStateM.Result SyntaxError ParseState Crate :=
  (Grammar.crate file).read options (.initial tokens file)

def parseSource (source file : String) : Except SyntaxError Crate := do
  match parse (← Token.scan source file) file with
  | .ok c _ => return c
  | .error e _ => throw e

end FrontEnd
