import FrontEnd.Session
/-!
# From steps to runs

A run ends with a value or an error, and in either case in a state. A relation between the first and
the last state that every single step keeps, and that survives what is done around a phrase, holds
of every run of every phrase.
-/
namespace FrontEnd

variable {α β : Type} {options : ParseOptions} {R : ParseState → ParseState → Prop}

/-- A run succeeds with a value and in a state that satisfy `P`. -/
def succeeds (P : α → ParseState → Bool) : EStateM.Result SyntaxError ParseState α → Bool
  | .ok a t => P a t
  | .error _ _ => false

theorem exists_ok_of_succeeds {P : α → ParseState → Bool}
    {r : EStateM.Result SyntaxError ParseState α} (h : succeeds P r = true) :
    ∃ a t, r = .ok a t ∧ P a t = true := by
  cases r with
  | ok a t => exact ⟨a, t, rfl, h⟩
  | error e t => cases h

namespace Reader

/-- The state where a run stops, with a value or an error. -/
def after (r : Reader α) (s : ParseState) : ParseState :=
  match r s with
  | .ok _ t => t
  | .error _ t => t

/-- Wherever a run starts, the state where it stops is related to the first one. -/
def Keeps (R : ParseState → ParseState → Prop) (r : Reader α) : Prop := ∀ s, R s (r.after s)

attribute [local simp] after

theorem after_of_ok {r : Reader α} {s t : ParseState} {a : α} (h : r s = .ok a t) :
    r.after s = t := by simp [h]

theorem after_of_error {r : Reader α} {s t : ParseState} {e : SyntaxError} (h : r s = .error e t) :
    r.after s = t := by simp [h]

theorem after_congr {r r' : Reader α} {s t : ParseState} (h : r s = r' t) :
    r.after s = r'.after t := by simp [h]

theorem Keeps.of_ok {r : Reader α} (hr : r.Keeps R) {s t : ParseState} {a : α}
    (h : r s = .ok a t) : R s t := after_of_ok h ▸ hr s

theorem Keeps.of_error {r : Reader α} (hr : r.Keeps R) {s t : ParseState} {e : SyntaxError}
    (h : r s = .error e t) : R s t := after_of_error h ▸ hr s

theorem bind_of_ok {r : Reader α} {f : α → Reader β} {s t : ParseState} {a : α}
    (h : r s = .ok a t) : (r >>= f) s = f a t := by
  show EStateM.bind r f s = _
  simp [EStateM.bind, h]

theorem bind_of_error {r : Reader α} {f : α → Reader β} {s t : ParseState} {e : SyntaxError}
    (h : r s = .error e t) : (r >>= f) s = .error e t := by
  show EStateM.bind r f s = _
  simp [EStateM.bind, h]

/-- Runs that do the same, and are gone on with in the same way where they succeed. -/
theorem bind_congr {r r' : Reader α} {f f' : α → Reader β} {s s' : ParseState} (h : r s = r' s')
    (hf : ∀ a t, r' s' = .ok a t → f a t = f' a t) : (r >>= f) s = (r' >>= f') s' := by
  cases hr : r' s' with
  | ok a t => rw [bind_of_ok hr, bind_of_ok (h.trans hr), hf a t hr]
  | error e t => rw [bind_of_error hr, bind_of_error (h.trans hr)]

theorem between_of_ok {before after' : ParseState → ParseState} {r : Reader α} {s t : ParseState}
    {a : α} (h : r (before s) = .ok a t) : between before after' r s = .ok a (after' t) := by
  simp [between, h]

theorem between_of_error {before after' : ParseState → ParseState} {r : Reader α}
    {s t : ParseState} {e : SyntaxError} (h : r (before s) = .error e t) :
    between before after' r s = .error e (after' t) := by
  simp [between, h]

theorem after_between (before after' : ParseState → ParseState) (r : Reader α) (s : ParseState) :
    (between before after' r).after s = after' (r.after (before s)) := by
  unfold after between
  cases r (before s) <;> rfl

theorem after_nested {limit : Nat} {r : Reader α} {s : ParseState} (h : s.depth < limit) :
    (nested limit r).after s =
      let t := r.after { s with depth := s.depth + 1 }
      { t with depth := t.depth - 1 } := by
  have hs : nested limit r s = between _ _ r s := if_pos h
  rw [after, hs]
  exact after_between _ _ r s

theorem after_nested_of_not {limit : Nat} {r : Reader α} {s : ParseState} (h : ¬s.depth < limit) :
    (nested limit r).after s = s := by
  simp [nested, h, tooDeep]

variable {round : Reader (Option α)} {fuel : Nat} {s t : ParseState}

attribute [local simp] collect

theorem collect_of_some {a : α} (h : round s = .ok (some a) t)
    (hp : t.cursor.ahead.length < s.cursor.ahead.length) :
    collect round (fuel + 1) s = (do return a :: (← collect round fuel) : Reader (List α)) t := by
  simp [h, hp]

theorem collect_of_stuck {a : α} (h : round s = .ok (some a) t)
    (hp : ¬t.cursor.ahead.length < s.cursor.ahead.length) :
    collect round (fuel + 1) s = .ok [a] t := by
  simp [h, hp]

theorem collect_of_none (h : round s = .ok none t) : collect round (fuel + 1) s = .ok [] t := by
  simp [h]

theorem collect_of_error {e : SyntaxError} (h : round s = .error e t) :
    collect round (fuel + 1) s = .error e t := by
  simp [h]

theorem Keeps.bind (trans : ∀ s t u, R s t → R t u → R s u) {r : Reader α} {f : α → Reader β}
    (hr : r.Keeps R) (hf : ∀ a, (f a).Keeps R) : (r >>= f).Keeps R := by
  intro s
  cases h : r s with
  | ok a t =>
    have hrest : R t ((f a).after t) := hf a t
    exact after_congr (bind_of_ok h) ▸ trans s t _ (hr.of_ok h) hrest
  | error e t => exact after_of_error (bind_of_error h) ▸ hr.of_error h

theorem Keeps.collect (refl : ∀ s, R s s) (trans : ∀ s t u, R s t → R t u → R s u)
    (hr : round.Keeps R) (fuel : Nat) : (collect round fuel).Keeps R := by
  induction fuel with
  | zero => exact refl
  | succ fuel ih =>
    intro s
    match h : round s with
    | .error e t => exact after_of_error (collect_of_error h) ▸ hr.of_error h
    | .ok none t => exact after_of_ok (collect_of_none h) ▸ hr.of_ok h
    | .ok (some a) t =>
      by_cases hp : t.cursor.ahead.length < s.cursor.ahead.length
      · have hrest : (do return a :: (← Reader.collect round fuel) : Reader (List α)).Keeps R :=
          ih.bind trans fun as => refl
        exact after_congr (collect_of_some h hp) ▸ trans s t _ (hr.of_ok h) (hrest t)
      · exact after_of_ok (collect_of_stuck h hp) ▸ hr.of_ok h

end Reader

/-- A session goes on from where the run stopped. -/
theorem Session.state_read (s : Session) (p : Phrase α) :
    (s.read p).2.state = (p.read s.options).after s.state := by
  unfold read Reader.after
  cases p.read s.options s.state <;> rfl

theorem Session.read_of_ok {s : Session} {p : Phrase α} {a : α} {t : ParseState}
    (h : p.read s.options s.state = .ok a t) : s.read p = (.ok a, { s with state := t }) := by
  simp [read, h]

theorem Session.ok_of_read {s : Session} {p : Phrase α} {a : α} (h : (s.read p).1 = .ok a) :
    p.read s.options s.state = .ok a (s.read p).2.state := by
  unfold read at h ⊢
  cases hr : p.read s.options s.state <;> simp_all

/-- What holds between two states if the second is reached from the first by steps. -/
structure Invariant (options : ParseOptions) (R : ParseState → ParseState → Prop) : Prop where
  refl : ∀ s, R s s
  trans : ∀ s t u, R s t → R t u → R s u
  act : ∀ {β : Type} (a : Act β) s, R s (a.run options s).2
  nested : ∀ {s t}, s.depth < options.maxDepth → R { s with depth := s.depth + 1 } t →
    R s { t with depth := t.depth - 1 }
  inScope : ∀ {s t}, R { s with toNames := s.push } t → R s { t with toNames := t.pop }
  structLiterals : ∀ {s t} (allowed : Bool), R { s with structLiterals := allowed } t →
    R s { t with structLiterals := s.structLiterals }

namespace Invariant

variable (h : Invariant options R)
include h

theorem run {below : (g : Goal) → Reader g.Tree} (hb : ∀ g, (below g).Keeps R) (p : Phrase α) :
    (p.run options below).Keeps R := by
  induction p with
  | done value => exact h.refl
  | fail expected => exact h.refl
  | act a next ih => exact fun s => h.trans s _ _ (h.act a s) (ih _ _)
  | nested g next ih => exact (hb g).bind h.trans ih
  | enclosed body next ihb ih =>
    refine Reader.Keeps.bind h.trans (fun s => ?_) ih
    rw [Reader.inScope, Reader.after_between]
    exact h.inScope (ihb _)
  | structLiterals allowed body next ihb ih =>
    refine Reader.Keeps.bind h.trans (fun s => ?_) ih
    have hs : (Reader.withStructLiterals allowed (body.run options below)).after s = _ :=
      Reader.after_between _ _ _ s
    exact hs ▸ h.structLiterals allowed (ihb _)
  | many round next ihr ih =>
    exact Reader.Keeps.bind h.trans (fun s => ihr.collect h.refl h.trans _ s) ih

theorem goal (fuel : Nat) (g : Goal) : (Goal.read options fuel g).Keeps R := by
  induction fuel generalizing g with
  | zero => exact h.refl
  | succ fuel ih =>
    intro s
    rw [Goal.read]
    by_cases hs : s.depth < options.maxDepth
    · rw [Reader.after_nested hs]
      exact h.nested hs (h.run ih _ _)
    · rw [Reader.after_nested_of_not hs]
      exact h.refl s

/-- What every step keeps, every run keeps. -/
theorem read (p : Phrase α) : (p.read options).Keeps R := h.run (h.goal _) p

end Invariant

end FrontEnd
