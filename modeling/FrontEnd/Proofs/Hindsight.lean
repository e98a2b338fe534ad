import FrontEnd.Proofs.Lockstep
/-!
# What was read before

Reading remembers of the tokens already passed only where the last one ended, and of the names only
whether patterns mean constants. So where names are not looked up, it goes on in the same way from any
two states with the same tokens ahead and the same token passed last. A phrase that begins by taking
a token does not even need that one.
-/
namespace FrontEnd

open Phrase

variable {α β : Type} {options : ParseOptions}

structure ParseState.SameAhead (s s' : ParseState) : Prop where
  ahead_eq : s.cursor.ahead = s'.cursor.ahead
  beyond_eq : s.cursor.beyond = s'.cursor.beyond
  depth_eq : s.depth = s'.depth
  literals_eq : s.structLiterals = s'.structLiterals

/-- Two states with the same tokens ahead, which have passed the same token last. -/
structure ParseState.GoesOnAs (s s' : ParseState) : Prop extends s.SameAhead s' where
  exists_last : ∃ t, s.cursor.passed.head? = some t ∧ s'.cursor.passed.head? = some t

namespace ParseState

variable {s s' : ParseState}

theorem SameAhead.kindAhead_eq (h : s.SameAhead s') (n : Nat) :
    s.cursor.kindAhead n = s'.cursor.kindAhead n := by
  rw [Cursor.kindAhead, Cursor.kindAhead, Cursor.ahead?, Cursor.ahead?, h.ahead_eq]

theorem SameAhead.current_eq (h : s.SameAhead s') : s.cursor.ahead? 0 = s'.cursor.ahead? 0 := by
  rw [Cursor.ahead?, Cursor.ahead?, h.ahead_eq]

/-- Where there is a current token, it tells the place and what is wrong with it. -/
theorem SameAhead.position_eq (h : s.SameAhead s') (hs : s.cursor.ahead ≠ []) :
    s.cursor.position = s'.cursor.position ∧
      ∀ expected, s.cursor.unexpected expected = s'.cursor.unexpected expected := by
  obtain ⟨names, ⟨passed, ahead, beyond, file⟩, depth, literals⟩ := s
  obtain ⟨names', ⟨passed', ahead', beyond', file'⟩, depth', literals'⟩ := s'
  obtain rfl : ahead = ahead' := h.ahead_eq
  obtain ⟨t, ts, rfl⟩ := List.exists_cons_of_ne_nil hs
  exact ⟨rfl, fun _ => rfl⟩

/-- After the current token has been passed it is the last one in both. -/
theorem SameAhead.advance (h : s.SameAhead s') (hs : s.cursor.ahead ≠ []) :
    GoesOnAs { s with cursor := s.cursor.advance } { s' with cursor := s'.cursor.advance } := by
  obtain ⟨names, ⟨passed, ahead, beyond, file⟩, depth, literals⟩ := s
  obtain ⟨names', ⟨passed', ahead', beyond', file'⟩, depth', literals'⟩ := s'
  obtain rfl : ahead = ahead' := h.ahead_eq
  obtain ⟨t, ts, rfl⟩ := List.exists_cons_of_ne_nil hs
  exact ⟨⟨rfl, h.beyond_eq, h.depth_eq, h.literals_eq⟩, t, rfl, rfl⟩

namespace GoesOnAs

variable (h : s.GoesOnAs s')
include h

theorem withNames (n n' : Names) : GoesOnAs { s with toNames := n } { s' with toNames := n' } :=
  ⟨⟨h.ahead_eq, h.beyond_eq, h.depth_eq, h.literals_eq⟩, h.exists_last⟩

theorem withDepth (d : Nat) : GoesOnAs { s with depth := d } { s' with depth := d } :=
  ⟨⟨h.ahead_eq, h.beyond_eq, rfl, h.literals_eq⟩, h.exists_last⟩

theorem withLiterals (allowed : Bool) :
    GoesOnAs { s with structLiterals := allowed } { s' with structLiterals := allowed } :=
  ⟨⟨h.ahead_eq, h.beyond_eq, h.depth_eq, rfl⟩, h.exists_last⟩

theorem spanFrom_eq (start : Span) : s.cursor.spanFrom start = s'.cursor.spanFrom start := by
  obtain ⟨t, ht, ht'⟩ := h.exists_last
  rw [Cursor.spanFrom, Cursor.spanFrom, Cursor.previous?, Cursor.previous?, h.beyond_eq, ht, ht']

theorem position_eq : s.cursor.position = s'.cursor.position := by
  obtain ⟨names, ⟨passed, ahead, beyond, file⟩, depth, literals⟩ := s
  obtain ⟨names', ⟨passed', ahead', beyond', file'⟩, depth', literals'⟩ := s'
  obtain ⟨⟨hahead, -, -, -⟩, t, hlast, hlast'⟩ := h
  obtain rfl : ahead = ahead' := hahead
  cases ahead with
  | cons u us => rfl
  | nil =>
    obtain ⟨ts, rfl⟩ := List.head?_eq_some_iff.1 hlast
    obtain ⟨ts', rfl⟩ := List.head?_eq_some_iff.1 hlast'
    rfl

theorem unexpected_eq (expected : String) :
    s.cursor.unexpected expected = s'.cursor.unexpected expected := by
  rw [Cursor.unexpected, Cursor.unexpected, h.ahead_eq, h.position_eq]

end GoesOnAs

end ParseState

namespace Reader

/-- Two runs give the same value and go on alike from there, or they fail with the same error. -/
def SameEnds : EStateM.Result SyntaxError ParseState α → EStateM.Result SyntaxError ParseState α → Prop
  | .ok a t, .ok a' t' => a = a' ∧ t.GoesOnAs t'
  | .error e _, .error e' _ => e = e'
  | _, _ => False

def Forgets (r : Reader α) : Prop := ∀ s s', s.GoesOnAs s' → SameEnds (r s) (r s')

theorem SameEnds.bind {r : Reader α} {f : α → Reader β} {s s' : ParseState}
    (hr : SameEnds (r s) (r s')) (hf : ∀ a, (f a).Forgets) : SameEnds ((r >>= f) s) ((r >>= f) s') := by
  match hrs : r s, hrs' : r s' with
  | .ok a t, .ok a' t' =>
    rw [hrs, hrs'] at hr
    obtain ⟨rfl, ht⟩ := hr
    rw [Reader.bind_of_ok hrs, Reader.bind_of_ok hrs']
    exact hf a t t' ht
  | .error e t, .error e' t' =>
    rw [hrs, hrs'] at hr
    rw [Reader.bind_of_error hrs, Reader.bind_of_error hrs']
    exact hr
  | .ok a t, .error e' t' | .error e t, .ok a' t' =>
    rw [hrs, hrs'] at hr
    exact hr.elim

namespace Forgets

variable {r : Reader α} {f : α → Reader β}

theorem bind (hr : r.Forgets) (hf : ∀ a, (f a).Forgets) : (r >>= f).Forgets :=
  fun s s' h => (hr s s' h).bind hf

theorem pure {a : α} : (Pure.pure a : Reader α).Forgets := fun _ _ h => ⟨rfl, h⟩

theorem between {before after after' : ParseState → ParseState} {s s' : ParseState}
    (hr : SameEnds (r (before s)) (r (before s')))
    (hafter : ∀ {t t'}, t.GoesOnAs t' → (after t).GoesOnAs (after' t')) :
    SameEnds (Reader.between before after r s) (Reader.between before after' r s') := by
  match hrs : r (before s), hrs' : r (before s') with
  | .ok a t, .ok a' t' =>
    rw [hrs, hrs'] at hr
    rw [Reader.between_of_ok hrs, Reader.between_of_ok hrs']
    exact ⟨hr.1, hafter hr.2⟩
  | .error e t, .error e' t' =>
    rw [hrs, hrs'] at hr
    rw [Reader.between_of_error hrs, Reader.between_of_error hrs']
    exact hr
  | .ok a t, .error e' t' | .error e t, .ok a' t' =>
    rw [hrs, hrs'] at hr
    exact hr.elim

theorem inScope (hr : r.Forgets) : (Reader.inScope r).Forgets := fun _ _ h =>
  between (hr _ _ (h.withNames _ _)) fun ht => ht.withNames _ _

theorem withStructLiterals {allowed : Bool} (hr : r.Forgets) :
    (Reader.withStructLiterals allowed r).Forgets := fun s s' h =>
  between (hr _ _ (h.withLiterals allowed)) fun ht => by
    rw [h.literals_eq]
    exact ht.withLiterals _

theorem nested {limit : Nat} (hr : r.Forgets) : (Reader.nested limit r).Forgets := by
  intro s s' h
  unfold Reader.nested
  rw [← h.depth_eq]
  split
  · refine between (hr _ _ ?_) fun {t t'} ht => ?_
    · rw [← h.depth_eq]
      exact h.withDepth _
    · rw [← ht.depth_eq]
      exact ht.withDepth _
  · exact congrArg _ h.position_eq

theorem collect {round : Reader (Option α)} (hr : round.Forgets) (fuel : Nat) :
    (Reader.collect round fuel).Forgets := by
  induction fuel with
  | zero => exact pure
  | succ fuel ih =>
    intro s s' h
    have hround := hr s s' h
    match hs : round s, hs' : round s' with
    | .error e t, .error e' t' =>
      rw [hs, hs'] at hround
      rwa [Reader.collect_of_error hs, Reader.collect_of_error hs']
    | .ok none t, .ok none t' =>
      rw [hs, hs'] at hround
      rw [Reader.collect_of_none hs, Reader.collect_of_none hs']
      exact ⟨rfl, hround.2⟩
    | .ok (some a) t, .ok (some a') t' =>
      rw [hs, hs'] at hround
      obtain ⟨heq, ht⟩ := hround
      obtain rfl := Option.some.inj heq
      by_cases hlt : t.cursor.ahead.length < s.cursor.ahead.length
      · have hlt' : t'.cursor.ahead.length < s'.cursor.ahead.length := by
          rwa [← ht.ahead_eq, ← h.ahead_eq]
        rw [Reader.collect_of_some hs hlt, Reader.collect_of_some hs' hlt']
        exact ih.bind (fun _ => pure) t t' ht
      · have hlt' : ¬t'.cursor.ahead.length < s'.cursor.ahead.length := by
          rwa [← ht.ahead_eq, ← h.ahead_eq]
        rw [Reader.collect_of_stuck hs hlt, Reader.collect_of_stuck hs' hlt']
        exact ⟨rfl, ht⟩
    | .ok none t, .ok (some a') t' | .ok (some a) t, .ok none t' =>
      rw [hs, hs'] at hround
      exact absurd hround.1 nofun
    | .ok a t, .error e' t' | .error e t, .ok a' t' =>
      rw [hs, hs'] at hround
      exact hround.elim

theorem many {round : Reader (Option α)} (hr : round.Forgets) : (Reader.many round).Forgets := by
  intro s s' h
  rw [Reader.many, Reader.many, h.ahead_eq]
  exact hr.collect _ s s' h

end Forgets

end Reader

/-- Taking the current token leaves nothing of what was passed before. -/
theorem Act.run_take_sameAhead {s s' : ParseState} (h : s.SameAhead s') (hs : s.cursor.ahead ≠ []) :
    (Act.take.run options s).1 = (Act.take.run options s').1 ∧
      (Act.take.run options s).2.GoesOnAs (Act.take.run options s').2 := by
  obtain ⟨t, ts, hts⟩ := List.exists_cons_of_ne_nil hs
  have ht : s.cursor.ahead? 0 = some t := by rw [Cursor.ahead?, hts]; rfl
  have ht' : s'.cursor.ahead? 0 = some t := h.current_eq ▸ ht
  simp only [Act.run, ht, ht', true_and]
  exact h.advance hs

section Forgetting

variable (hnames : options.resolvePatterns = false)
include hnames

/-- A step has the same result and goes on alike. -/
theorem Act.run_goesOnAs {s s' : ParseState} (a : Act β) (h : s.GoesOnAs s') :
    (a.run options s).1 = (a.run options s').1 ∧
      (a.run options s).2.GoesOnAs (a.run options s').2 := by
  cases a with
  | kind ahead => exact ⟨h.kindAhead_eq _, h⟩
  | current => exact ⟨h.current_eq, h⟩
  | take =>
    by_cases hs : s.cursor.ahead = []
    · have hs' : s'.cursor.ahead = [] := h.ahead_eq ▸ hs
      have hcurrent : s.cursor.ahead? 0 = none := by rw [Cursor.ahead?, hs]; rfl
      have hcurrent' : s'.cursor.ahead? 0 = none := by rw [Cursor.ahead?, hs']; rfl
      simpa only [Act.run, hcurrent, hcurrent', true_and] using h
    · exact run_take_sameAhead h.toSameAhead hs
  | spanFrom start => exact ⟨h.spanFrom_eq start, h⟩
  | position => exact ⟨h.position_eq, h⟩
  | structLiterals => exact ⟨h.literals_eq, h⟩
  | isConstant name => exact ⟨by simp [Act.run, hnames], h⟩
  | declare symbol place => exact ⟨rfl, h.withNames _ _⟩
  | bind symbol => exact ⟨rfl, h.withNames _ _⟩

theorem Phrase.run_forgets {below : (g : Goal) → Reader g.Tree} (hb : ∀ g, (below g).Forgets)
    (p : Phrase α) : (p.run options below).Forgets := by
  induction p with
  | done value => exact .pure
  | fail expected => exact fun s s' h => h.unexpected_eq expected
  | act a next ih =>
    intro s s' h
    obtain ⟨hvalue, hstate⟩ := a.run_goesOnAs hnames h
    simp only [Phrase.run]
    rw [hvalue]
    exact ih _ _ _ hstate
  | nested g next ih => exact (hb g).bind ih
  | enclosed body next ihb ih => exact ihb.inScope.bind ih
  | structLiterals allowed body next ihb ih => exact ihb.withStructLiterals.bind ih
  | many round next ihr ih => exact ihr.many.bind ih

theorem Goal.read_forgets (fuel : Nat) (g : Goal) : (Goal.read options fuel g).Forgets := by
  induction fuel generalizing g with
  | zero => exact fun s s' h => congrArg _ h.position_eq
  | succ fuel ih => exact (Phrase.run_forgets hnames ih _).nested

/-- Where names are not looked up, reading depends on the tokens ahead and the one passed last. -/
theorem Phrase.read_forgets (p : Phrase α) : (p.read options).Forgets :=
  p.run_forgets hnames (Goal.read_forgets hnames _)

end Forgetting

/-- Steps that look at what is ahead. -/
def Act.Looks : Act α → Prop
  | .kind _ | .current | .position | .structLiterals => True
  | _ => False

/-- Looking at a token changes nothing, and what is seen does not depend on the tokens passed. -/
theorem Act.Looks.run {a : Act α} (ha : a.Looks) {s s' : ParseState} (h : s.SameAhead s')
    (hs : s.cursor.ahead ≠ []) :
    (a.run options s).2 = s ∧ (a.run options s').2 = s' ∧
      (a.run options s).1 = (a.run options s').1 := by
  cases a with
  | kind ahead => exact ⟨rfl, rfl, h.kindAhead_eq _⟩
  | current => exact ⟨rfl, rfl, h.current_eq⟩
  | position => exact ⟨rfl, rfl, (h.position_eq hs).1⟩
  | structLiterals => exact ⟨rfl, rfl, h.literals_eq⟩
  | _ => exact ha.elim

namespace Phrase

/-- Phrases that look ahead, and then take a token before they do anything else, or fail. -/
inductive TakesFirst : {α : Type} → Phrase α → Prop
  | fail {α : Type} {expected : String} : TakesFirst (.fail expected : Phrase α)
  | take {α : Type} {next : Option Token → Phrase α} : TakesFirst (.act .take next)
  | look {α β : Type} {a : Act β} {next : β → Phrase α} (ha : a.Looks)
    (hnext : ∀ b, TakesFirst (next b)) : TakesFirst (.act a next)

namespace TakesFirst

variable {p q : Phrase α} {f : α → Phrase β} {k : TokenKind}

theorem bind (hp : p.TakesFirst) : (p >>= f).TakesFirst := by
  rw [bind_eq_andThen]
  induction hp with
  | fail => exact .fail
  | take => exact .take
  | look ha _ ih => exact .look ha fun b => ih b

theorem map {f : α → β} (hp : p.TakesFirst) : (f <$> p).TakesFirst := by
  rw [map_eq_pure_bind]
  exact hp.bind

theorem ite {c : Prop} [Decidable c] (hp : p.TakesFirst) (hq : q.TakesFirst) :
    (if c then p else q).TakesFirst := by
  split
  · exact hp
  · exact hq

theorem kind {f : TokenKind → Phrase β} (hf : ∀ k, (f k).TakesFirst) :
    (Phrase.kind >>= f).TakesFirst := .look trivial hf

theorem nextKind {f : TokenKind → Phrase β} (hf : ∀ k, (f k).TakesFirst) :
    (Phrase.nextKind >>= f).TakesFirst := .look trivial hf

theorem current {f : Token → Phrase β} (hf : ∀ t, (f t).TakesFirst) :
    (Phrase.current >>= f).TakesFirst := .look trivial fun t => by
  cases t with
  | none => exact .fail
  | some t => exact hf t

theorem expect : (Phrase.expect k).TakesFirst := kind fun _ => .ite .take .fail

theorem eat {f : Bool → Phrase β} (hf : (f false).TakesFirst) : (Phrase.eat k >>= f).TakesFirst :=
  kind fun c => by
    show TakesFirst ((if c = k then Phrase.take >>= fun _ => pure true else pure false) >>= f)
    split
    · exact .take
    · exact hf

end TakesFirst

end Phrase

namespace Grammar

theorem takesFirst_declaredItem : declaredItem.TakesFirst := by
  have hfunction : (function false).TakesFirst :=
    .current fun _ => .eat (TakesFirst.expect.bind)
  refine .bind (.kind fun _ => .nextKind fun _ => ?_)
  split
  · exact hfunction.map
  · exact hfunction.map
  · exact TakesFirst.expect.bind.map
  · exact TakesFirst.expect.bind
  · exact TakesFirst.expect.bind
  · exact TakesFirst.expect.bind
  · exact TakesFirst.expect.bind
  · exact .fail

end Grammar

/-- Where there is a token ahead, a phrase that takes it first does not ask what was passed before. -/
theorem Phrase.TakesFirst.read {p : Phrase α} (hp : p.TakesFirst)
    (hnames : options.resolvePatterns = false) {s s' : ParseState} (h : s.SameAhead s')
    (hs : s.cursor.ahead ≠ []) : Reader.SameEnds (p.read options s) (p.read options s') := by
  unfold Phrase.read
  induction hp with
  | fail => exact (h.position_eq hs).2 _
  | take =>
    obtain ⟨hvalue, hstate⟩ := Act.run_take_sameAhead h hs
    simp only [Phrase.run]
    rw [hvalue]
    exact read_forgets hnames _ _ _ hstate
  | look ha _ ih =>
    obtain ⟨hstate, hstate', hvalue⟩ := ha.run h hs
    simp only [Phrase.run]
    rw [hstate, hstate', hvalue]
    exact ih _

end FrontEnd
