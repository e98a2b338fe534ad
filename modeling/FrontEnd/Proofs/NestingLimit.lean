import FrontEnd.Proofs.StoppingPoint
import Mathlib.Order.UpperLower.Basic
/-!
# The nesting limit is only a cut-off

Two runs of one phrase that differ only in the number of levels they may nest go step by step
together until the one with fewer levels has none left. That one then fails, and nothing catches the
failure; if it never comes to that, the two runs end alike, with the same state.
-/
namespace FrontEnd

variable {α β : Type} {options options' : ParseOptions} {limit limit' : Nat}

namespace Reader

/-- The run from a state fails because no level of nesting is left. -/
def FailsDeep (limit : Nat) (r : Reader α) (s : ParseState) : Prop :=
  ∃ place t, r s = .error ⟨.nestingTooDeep limit, place⟩ t

/-- From every state the first run fails for want of a level, or the second run is the same. -/
def CutOff (limit : Nat) (r r' : Reader α) : Prop := ∀ s, r.FailsDeep limit s ∨ r' s = r s

theorem CutOff.refl (r : Reader α) : r.CutOff limit r := fun _ => .inr rfl

theorem CutOff.bind {r r' : Reader α} {f f' : α → Reader β} (hr : r.CutOff limit r')
    (hf : ∀ a, (f a).CutOff limit (f' a)) : (r >>= f).CutOff limit (r' >>= f') := by
  intro s
  rcases hr s with ⟨place, t, h⟩ | h
  · exact .inl ⟨place, t, bind_of_error h⟩
  · cases hs : r s with
    | error e t =>
      right
      rw [bind_of_error hs, bind_of_error (h.trans hs)]
    | ok a t =>
      have hbind : (r >>= f) s = f a t := bind_of_ok hs
      have hbind' : (r' >>= f') s = f' a t := bind_of_ok (h.trans hs)
      rcases hf a t with ⟨place, u, hfail⟩ | hsame
      · exact .inl ⟨place, u, hbind.trans hfail⟩
      · exact .inr (by rw [hbind, hbind', hsame])

theorem between_congr {before after' : ParseState → ParseState} {r r' : Reader α} {s : ParseState}
    (h : r (before s) = r' (before s)) : between before after' r s = between before after' r' s := by
  simp [between, h]

theorem CutOff.between {r r' : Reader α} (hr : r.CutOff limit r')
    (before after : ParseState → ParseState) :
    (between before after r).CutOff limit (between before after r') := by
  intro s
  rcases hr (before s) with ⟨place, t, h⟩ | h
  · exact .inl ⟨place, after t, between_of_error h⟩
  · exact .inr (between_congr h)

theorem CutOff.inScope {r r' : Reader α} (hr : r.CutOff limit r') :
    (inScope r).CutOff limit (inScope r') :=
  hr.between _ _

theorem CutOff.withStructLiterals {r r' : Reader α} (hr : r.CutOff limit r') (allowed : Bool) :
    (withStructLiterals allowed r).CutOff limit (withStructLiterals allowed r') :=
  fun s => hr.between _ _ s

/-- The first run fails where it has no level left. Elsewhere the second has one too. -/
theorem CutOff.nested {r r' : Reader α} (hr : r.CutOff limit r') (h : limit ≤ limit') :
    (nested limit r).CutOff limit (nested limit' r') := by
  intro s
  by_cases hs : s.depth < limit
  · have hs' : s.depth < limit' := Nat.lt_of_lt_of_le hs h
    have hrun : Reader.nested limit r s = Reader.between _ _ r s := if_pos hs
    have hrun' : Reader.nested limit' r' s = Reader.between _ _ r' s := if_pos hs'
    rw [FailsDeep, hrun, hrun']
    exact hr.between _ _ s
  · exact .inl ⟨s.cursor.position, s, if_neg hs⟩

theorem CutOff.collect {round round' : Reader (Option α)} (hr : round.CutOff limit round')
    (fuel : Nat) : (collect round fuel).CutOff limit (collect round' fuel) := by
  induction fuel with
  | zero => exact .refl _
  | succ fuel ih =>
    intro s
    rcases hr s with ⟨place, t, h⟩ | h
    · exact .inl ⟨place, t, collect_of_error h⟩
    · match hs : round s with
      | .error e t => exact .inr (by rw [collect_of_error hs, collect_of_error (h.trans hs)])
      | .ok none t => exact .inr (by rw [collect_of_none hs, collect_of_none (h.trans hs)])
      | .ok (some a) t =>
        by_cases hlt : t.cursor.ahead.length < s.cursor.ahead.length
        · have hrest := ih.bind fun as => (CutOff.refl (pure (a :: as)) : CutOff limit _ _)
          rw [FailsDeep, collect_of_some hs hlt, collect_of_some (h.trans hs) hlt]
          exact hrest t
        · exact .inr (by rw [collect_of_stuck hs hlt, collect_of_stuck (h.trans hs) hlt])

/-- Every error that a run ends with has the property. -/
def FailsWith (P : SyntaxError → Prop) (r : Reader α) : Prop := ∀ s e t, r s = .error e t → P e

end Reader

namespace Phrase

theorem run_cutOff (hresolve : options.resolvePatterns = options'.resolvePatterns)
    {below below' : (g : Goal) → Reader g.Tree} (hb : ∀ g, (below g).CutOff limit (below' g))
    (p : Phrase α) : (p.run options below).CutOff limit (p.run options' below') := by
  induction p with
  | done value => exact .refl _
  | fail expected => exact .refl _
  | act a next ih =>
    intro s
    have hact : a.run options s = a.run options' s := by cases a <;> simp [Act.run, hresolve]
    simp only [Reader.FailsDeep, run, hact]
    exact ih _ _
  | nested g next ih => exact (hb g).bind ih
  | enclosed body next ihb ih => exact ihb.inScope.bind ih
  | structLiterals allowed body next ihb ih => exact (ihb.withStructLiterals allowed).bind ih
  | many round next ihr ih =>
    refine Reader.CutOff.bind (fun s => ?_) ih
    exact ihr.collect _ s

end Phrase

theorem Goal.read_cutOff (hresolve : options.resolvePatterns = options'.resolvePatterns)
    (hdepth : options.maxDepth ≤ options'.maxDepth) {fuel fuel' : Nat} (hfuel : fuel ≤ fuel')
    (g : Goal) : (Goal.read options fuel g).CutOff options.maxDepth (Goal.read options' fuel' g) := by
  induction fuel generalizing fuel' g with
  | zero => exact fun s => .inl ⟨_, _, rfl⟩
  | succ fuel ih =>
    obtain ⟨fuel', rfl⟩ := Nat.exists_eq_add_of_le' (Nat.lt_of_lt_of_le fuel.succ_pos hfuel)
    have hle : fuel ≤ fuel' := Nat.le_of_succ_le_succ hfuel
    rw [Goal.read, Goal.read]
    exact (Phrase.run_cutOff hresolve (fun g => ih hle g) _).nested hdepth

/-- A run that never wants for a level is the same run with more levels. -/
theorem Phrase.read_cutOff (hresolve : options.resolvePatterns = options'.resolvePatterns)
    (hdepth : options.maxDepth ≤ options'.maxDepth) (p : Phrase α) :
    (p.read options).CutOff options.maxDepth (p.read options') :=
  p.run_cutOff hresolve fun g => g.read_cutOff hresolve hdepth hdepth

/-- The limit that an error names is the limit of the run. -/
theorem Phrase.read_limit (p : Phrase α) :
    (p.read options).FailsWith fun e => ∀ limit, e.cause = .nestingTooDeep limit →
      limit = options.maxDepth := by
  intro s e t h limit hlimit
  exact (p.read_describes s e t h).limit_eq limit hlimit

/-- A file is accepted if it is read without error. -/
def Accepts (tokens : List Token) (file : String) (options : ParseOptions) : Prop :=
  ∃ c t, parse tokens file options = .ok c t

/-- The nesting limit is only a cut-off. A file that is read with some limit, without an error for
want of levels, is read with every higher limit to the same end: the same tree or error, and the same
state with its scopes and redefinitions. So the limits under which a file is accepted are closed
upwards. An error for want of levels names the limit. -/
theorem parse_eq_of_maxDepth_le (tokens : List Token) (file : String) (resolve : Bool) :
    (∀ d d', d ≤ d' →
      (∀ e t limit, parse tokens file ⟨d, resolve⟩ = .error e t → e.cause ≠ .nestingTooDeep limit) →
      parse tokens file ⟨d', resolve⟩ = parse tokens file ⟨d, resolve⟩) ∧
    IsUpperSet {d | Accepts tokens file ⟨d, resolve⟩} ∧
    ∀ d e t limit, parse tokens file ⟨d, resolve⟩ = .error e t → e.cause = .nestingTooDeep limit →
      limit = d := by
  have hcut {d d' : Nat} (h : d ≤ d') :
      ((Grammar.crate file).read ⟨d, resolve⟩).CutOff d ((Grammar.crate file).read ⟨d', resolve⟩) :=
    @Phrase.read_cutOff _ ⟨d, resolve⟩ ⟨d', resolve⟩ rfl h _
  refine ⟨fun d d' hle hdeep => ?_, ?_, fun d e t limit h hcause => ?_⟩
  · rcases hcut hle (.initial tokens file) with ⟨place, t, h⟩ | h
    · exact absurd rfl (hdeep _ t d h)
    · exact h
  · rintro d d' hle ⟨c, t, hok⟩
    rcases hcut hle (.initial tokens file) with ⟨place, u, h⟩ | h
    · have hparse := hok.symm.trans h
      cases hparse
    · exact ⟨c, t, h.trans hok⟩
  · exact (Grammar.crate file).read_limit _ _ _ h limit hcause

/-- A constant that takes one level for its type and one for its value. Two levels are enough for it
and none is not. -/
theorem parse_eq_of_maxDepth_le_constant :
    let tokens := [TokenKind.kwConst, .underscore, .colon, .bang, .assignment, .kwBreak,
      .semicolon].map Token.fixed
    parse tokens "t" ⟨9, true⟩ = parse tokens "t" ⟨2, true⟩ ∧
      ∃ e t limit, parse tokens "t" ⟨0, true⟩ = .error e t ∧ e.cause = .nestingTooDeep limit ∧
        limit = 0 := by
  intro tokens
  obtain ⟨hsame, -, hlimit⟩ := parse_eq_of_maxDepth_le tokens "t" true
  constructor
  · have hok : (parse tokens "t" ⟨2, true⟩ matches .ok _ _) = true := by decide +kernel
    apply hsame 2 9 (by decide)
    intro e t limit h
    simp [h] at hok
  · have hdeep : (parse tokens "t" ⟨0, true⟩ matches .error ⟨.nestingTooDeep _, _⟩ _) = true := by
      decide +kernel
    match h : parse tokens "t" ⟨0, true⟩ with
    | .error ⟨.nestingTooDeep limit, place⟩ t =>
      exact ⟨_, t, limit, rfl, rfl, hlimit 0 _ t limit h rfl⟩
    | .error ⟨.unexpectedToken _ _, _⟩ _ | .error ⟨.unexpectedEndOfInput _, _⟩ _
    | .error ⟨.unrecognisedToken _, _⟩ _ | .ok _ _ => simp [h] at hdeep

end FrontEnd
