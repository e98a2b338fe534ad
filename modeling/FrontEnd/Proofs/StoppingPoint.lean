import FrontEnd.Proofs.Invariant
import FrontEnd.Proofs.Tree.Written
/-!
# Errors describe the point where reading stopped

An error is made from the current token, and nothing catches it. On its way out scopes are closed,
levels are left and struct literals are allowed again, but the cursor stays. So an error that comes
out of a run still describes the token at which the run has stopped.
-/
namespace FrontEnd

variable {α β : Type} {options : ParseOptions} {limit : Nat}

/-- The error tells what is at the cursor: its place, the token that was not expected there or the
end of the input. Only an error for want of levels tells something else, how many there are. -/
structure SyntaxError.Describes (limit : Nat) (e : SyntaxError) (c : Cursor) : Prop where
  position_eq : e.position = c.position
  found_eq : ∀ expected found, e.cause = .unexpectedToken expected found →
    ∃ t, c.ahead? 0 = some t ∧ t.kind ≠ .eof ∧ t.value = found
  ended : ∀ expected, e.cause = .unexpectedEndOfInput expected → c.kind = .eof
  limit_eq : ∀ n, e.cause = .nestingTooDeep n → n = limit
  recognised : ∀ text, e.cause ≠ .unrecognisedToken text

namespace Cursor

/-- The error where the current token is not what is expected describes the cursor. -/
theorem describes_unexpected (c : Cursor) (expected : String) :
    (c.unexpected expected).Describes limit c := by
  obtain ⟨passed, ahead, beyond, file⟩ := c
  cases ahead with
  | nil => constructor <;> simp [unexpected, kind, kindAhead, ahead?]
  | cons t ts =>
    by_cases hk : t.kind = .eof
    · constructor <;> simp [unexpected, kind, kindAhead, ahead?, hk]
    · constructor <;> simp [unexpected, ahead?, hk]

/-- So does the error for want of a token. -/
theorem describes_of_peek {c : Cursor} {e : SyntaxError} (h : c.peek = .error e) :
    e.Describes limit c := by
  cases ht : c.ahead? 0 with
  | some t => simp [peek, peekAhead, ht] at h
  | none =>
    obtain rfl : c.noToken = e := by simpa [peek, peekAhead, ht] using h
    constructor <;> simp [noToken, kind, kindAhead, ht]

theorem peek_of_consume {c : Cursor} {e : SyntaxError} (h : c.consume = .error e) :
    c.peek = .error e := by
  cases hp : c.peek with
  | ok t => simp [consume, hp] at h
  | error e' => simpa [consume, hp] using h

/-- The error for want of a level names the limit. -/
theorem describes_tooDeep (c : Cursor) :
    SyntaxError.Describes limit ⟨.nestingTooDeep limit, c.position⟩ c := by
  constructor <;> simp

end Cursor

namespace Reader

/-- Every error of a run is in a relation to the cursor where the run stops. -/
def FailsAt (P : SyntaxError → Cursor → Prop) (r : Reader α) : Prop :=
  ∀ s e t, r s = .error e t → P e t.cursor

variable {P : SyntaxError → Cursor → Prop}

theorem FailsAt.pure (a : α) : (Pure.pure a : Reader α).FailsAt P := by
  intro s e t h
  cases h

theorem FailsAt.fail (hfail : ∀ (c : Cursor) expected, P (c.unexpected expected) c)
    (expected : String) : (fail expected : Reader α).FailsAt P := by
  intro s e t h
  cases h
  apply hfail

theorem FailsAt.tooDeep (hdeep : ∀ c : Cursor, P ⟨.nestingTooDeep limit, c.position⟩ c) :
    (tooDeep limit : Reader α).FailsAt P := by
  intro s e t h
  cases h
  apply hdeep

theorem FailsAt.bind {r : Reader α} {f : α → Reader β} (hr : r.FailsAt P)
    (hf : ∀ a, (f a).FailsAt P) : (r >>= f).FailsAt P := by
  intro s e u h
  cases hs : r s with
  | error e' t =>
    rw [bind_of_error hs] at h
    cases h
    exact hr s _ _ hs
  | ok a t =>
    rw [bind_of_ok hs] at h
    exact hf a t e u h

/-- What is undone after a run moves no cursor, so the error still tells what is there. -/
theorem FailsAt.between {r : Reader α} (hr : r.FailsAt P) (before : ParseState → ParseState)
    {after : ParseState → ParseState} (hafter : ∀ t, (after t).cursor = t.cursor) :
    (between before after r).FailsAt P := by
  intro s e t h
  cases hs : r (before s) with
  | error e' u =>
    rw [between_of_error hs] at h
    cases h
    rw [hafter]
    exact hr _ _ _ hs
  | ok a u =>
    rw [between_of_ok hs] at h
    cases h

theorem FailsAt.inScope {r : Reader α} (hr : r.FailsAt P) : (inScope r).FailsAt P :=
  hr.between _ fun _ => rfl

theorem FailsAt.withStructLiterals {r : Reader α} (hr : r.FailsAt P) (allowed : Bool) :
    (withStructLiterals allowed r).FailsAt P := by
  intro s
  apply hr.between
  intro t
  rfl

theorem FailsAt.nested {r : Reader α} (hr : r.FailsAt P)
    (hdeep : ∀ c : Cursor, P ⟨.nestingTooDeep limit, c.position⟩ c) :
    (nested limit r).FailsAt P := by
  intro s
  by_cases hs : s.depth < limit
  · have hrun : Reader.nested limit r s = Reader.between _ _ r s := if_pos hs
    rw [hrun]
    apply hr.between
    intro t
    rfl
  · have hrun : Reader.nested limit r s = Reader.tooDeep limit s := if_neg hs
    rw [hrun]
    apply FailsAt.tooDeep hdeep

theorem FailsAt.collect {round : Reader (Option α)} (hr : round.FailsAt P) (fuel : Nat) :
    (collect round fuel).FailsAt P := by
  induction fuel with
  | zero => apply FailsAt.pure
  | succ fuel ih =>
    intro s e u h
    match hs : round s with
    | .error e' t =>
      rw [collect_of_error hs] at h
      cases h
      exact hr s _ _ hs
    | .ok none t =>
      rw [collect_of_none hs] at h
      cases h
    | .ok (some a) t =>
      by_cases hlt : t.cursor.ahead.length < s.cursor.ahead.length
      · rw [collect_of_some hs hlt] at h
        exact ih.bind (fun as => FailsAt.pure (a :: as)) t e u h
      · rw [collect_of_stuck hs hlt] at h
        cases h

theorem FailsAt.many {round : Reader (Option α)} (hr : round.FailsAt P) :
    (many round).FailsAt P := by
  intro s
  apply hr.collect

end Reader

section Runs

variable {P : SyntaxError → Cursor → Prop}
  (hfail : ∀ (c : Cursor) expected, P (c.unexpected expected) c)
include hfail

theorem Phrase.run_failsAt {below : (g : Goal) → Reader g.Tree} (hb : ∀ g, (below g).FailsAt P)
    (p : Phrase α) : (p.run options below).FailsAt P := by
  induction p with
  | done value => apply Reader.FailsAt.pure
  | fail expected => apply Reader.FailsAt.fail hfail
  | act a next ih =>
    intro s
    apply ih
  | nested g next ih => apply (hb g).bind ih
  | enclosed body next ihb ih => apply ihb.inScope.bind ih
  | structLiterals allowed body next ihb ih => apply (ihb.withStructLiterals allowed).bind ih
  | many round next ihr ih => apply ihr.many.bind ih

variable (hdeep : ∀ c : Cursor, P ⟨.nestingTooDeep options.maxDepth, c.position⟩ c)
include hdeep

theorem Goal.read_failsAt (fuel : Nat) (g : Goal) : (Goal.read options fuel g).FailsAt P := by
  induction fuel generalizing g with
  | zero => apply Reader.FailsAt.tooDeep hdeep
  | succ fuel ih =>
    rw [Goal.read]
    apply Reader.FailsAt.nested _ hdeep
    apply Phrase.run_failsAt hfail ih

theorem Phrase.read_failsAt (p : Phrase α) : (p.read options).FailsAt P := by
  apply p.run_failsAt hfail
  apply Goal.read_failsAt hfail hdeep

end Runs

/-- Every error of a run describes the cursor where the run stops. -/
theorem Phrase.read_describes (p : Phrase α) :
    (p.read options).FailsAt (SyntaxError.Describes options.maxDepth) := by
  have hfail (c : Cursor) (expected : String) :
      (c.unexpected expected).Describes options.maxDepth c := c.describes_unexpected expected
  exact p.read_failsAt hfail Cursor.describes_tooDeep

namespace Session

theorem describes_of_enter {s : Session} {e : SyntaxError} (h : s.enter.1 = .error e) :
    e.Describes s.options.maxDepth s.enter.2.state.cursor := by
  by_cases hs : s.state.depth < s.options.maxDepth
  · simp [enter, hs] at h
  · simp only [enter, hs, if_false, Except.error.injEq] at h ⊢
    subst h
    exact s.state.cursor.describes_tooDeep

/-- Errors describe the point where reading stopped. Whatever a session has done before, the error
of a phrase that it fails to read, of a level that it fails to enter, of a token that it fails to
look at or take, and of a whole file tells what is at the cursor after that: it has the place of the
cursor, an unexpected token is the current one and does not end the input, an unexpected end is
there, and a limit is that of the options. No such error is about text that is no token. -/
theorem describes_of_error :
    (∀ (s : Session) {α : Type} (p : Phrase α) e, (s.read p).1 = .error e →
      e.Describes s.options.maxDepth (s.read p).2.state.cursor) ∧
    (∀ (s : Session) e, s.enter.1 = .error e →
      e.Describes s.options.maxDepth s.enter.2.state.cursor) ∧
    (∀ (s : Session) e, s.state.cursor.peek = .error e ∨ s.state.cursor.consume = .error e →
      e.Describes s.options.maxDepth s.state.cursor) ∧
    ∀ tokens file options e t, parse tokens file options = .error e t →
      e.Describes options.maxDepth t.cursor := by
  refine ⟨?_, ?_, ?_, ?_⟩
  · intro s α p e h
    cases hp : p.read s.options s.state with
    | ok a t => simp [read, hp] at h
    | error e' t =>
      simp only [read, hp, Except.error.injEq] at h ⊢
      subst h
      exact p.read_describes _ _ _ hp
  · intro s e h
    exact describes_of_enter h
  · intro s e h
    apply Cursor.describes_of_peek
    exact h.elim id Cursor.peek_of_consume
  · intro tokens file options e t h
    exact (Grammar.crate file).read_describes _ _ _ h

/-- A binding whose type is missing, read where an item was not found: the error names the
parenthesis at which the session then stands. Without levels none is entered, without tokens there
is none to look at, and a file does not end after `const`. -/
theorem describes_of_error_binding :
    let tokens := [TokenKind.kwLet, .underscore, .colon, .closeParen].map Token.fixed
    let s := ((start tokens "t").read Grammar.item).2
    (∃ e, (s.read Grammar.letBinding).1 = .error e ∧
      e.Describes s.options.maxDepth (s.read Grammar.letBinding).2.state.cursor) ∧
    (∃ e, (start [] "t" ⟨0, true⟩).enter.1 = .error e ∧
      e.Describes 0 (start [] "t" ⟨0, true⟩).enter.2.state.cursor) ∧
    (∃ e, (start [] "t").state.cursor.peek = .error e ∧
      e.Describes 256 (start [] "t").state.cursor) ∧
    ∃ e t, parse [.fixed .kwConst] "t" = .error e t ∧ e.Describes 256 t.cursor := by
  intro tokens s
  obtain ⟨hread, henter, hpeek, hparse⟩ := describes_of_error
  refine ⟨?_, ?_, ?_, ?_⟩
  · have hfails :
        ((s.read Grammar.letBinding).1 matches .error ⟨.unexpectedToken _ _, _⟩) = true := by
      decide +kernel
    match he : (s.read Grammar.letBinding).1 with
    | .ok a => simp [he] at hfails
    | .error e => exact ⟨e, rfl, hread _ _ e he⟩
  · exact ⟨_, rfl, henter (start [] "t" ⟨0, true⟩) _ rfl⟩
  · exact ⟨_, rfl, hpeek (start [] "t") _ (.inl rfl)⟩
  · have hfails : (parse [.fixed .kwConst] "t" matches .error _ _) = true := by decide +kernel
    match he : parse [.fixed .kwConst] "t" with
    | .ok a t => simp [he] at hfails
    | .error e t => exact ⟨e, t, rfl, hparse _ _ _ e t he⟩

end Session

end FrontEnd
