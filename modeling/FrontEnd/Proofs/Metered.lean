import FrontEnd.Proofs.Gives
/-!
# Runs on a budget

A run whose calls can be counted. Each goal, each scope, each change of what is allowed and each
round of a loop is a call, which leaves one call less to what is called, and a loop goes on by calling
itself. So a budget bounds how deep calls stand in each other. Nothing else ends such a run: unlike
`Goal.read` it has no counter of levels and unlike `Reader.many` no look at the tokens passed. If the
budget is too small there is no result.
-/
namespace FrontEnd

variable {α β : Type} {options : ParseOptions} {s t : ParseState}

/-- A run that may have no result. -/
abbrev Metered (α : Type) := ParseState → Option (EStateM.Result SyntaxError ParseState α)

namespace Metered

def andThen (m : Metered α) (f : α → Metered β) : Metered β := fun s =>
  match m s with
  | none => none
  | some (.ok a s) => f a s
  | some (.error e s) => some (.error e s)

def between (before after : ParseState → ParseState) (m : Metered α) : Metered α := fun s =>
  match m (before s) with
  | none => none
  | some (.ok a s) => some (.ok a (after s))
  | some (.error e s) => some (.error e (after s))

def nested (limit : Nat) (m : Metered α) : Metered α := fun s =>
  if s.depth < limit then
    between (fun s => { s with depth := s.depth + 1 }) (fun s => { s with depth := s.depth - 1 }) m s
  else
    some (Reader.tooDeep limit s)

def inScope (m : Metered α) : Metered α :=
  between (fun s => { s with toNames := s.push }) (fun s => { s with toNames := s.pop }) m

def withStructLiterals (allowed : Bool) (m : Metered α) : Metered α := fun s =>
  between (fun s => { s with structLiterals := allowed })
    (fun t => { t with structLiterals := s.structLiterals }) m s

/-- A round, and if it yields something the rounds after it. -/
def rounds (round : Metered (Option α)) (others : Metered (List α)) : Metered (List α) :=
  andThen round fun
    | none => fun s => some (.ok [] s)
    | some a => andThen others fun as s => some (.ok (a :: as) s)

end Metered

/-- Runs a phrase; `call` runs what it calls. -/
def Phrase.runCalls (options : ParseOptions) (call : {β : Type} → Phrase β → Metered β) {α : Type} :
    Phrase α → Metered α
  | .done value => fun s => some (.ok value s)
  | .fail expected => fun s => some (Reader.fail expected s)
  | .act a next => fun s =>
    let (b, s) := a.run options s
    (next b).runCalls options call s
  | .nested g next =>
    (Metered.nested options.maxDepth (call (Grammar.rule g))).andThen fun t =>
      (next t).runCalls options call
  | .enclosed body next =>
    (Metered.inScope (call body)).andThen fun b => (next b).runCalls options call
  | .structLiterals allowed body next =>
    (Metered.withStructLiterals allowed (call body)).andThen fun b =>
      (next b).runCalls options call
  | .many round next =>
    (Metered.rounds (call round) (call (.many round .done))).andThen fun bs =>
      (next bs).runCalls options call

/-- Runs a phrase with a budget of calls in each other. -/
def Phrase.metered (options : ParseOptions) : (budget : Nat) → {α : Type} → Phrase α → Metered α
  | 0, _, _ => fun _ => none
  | budget + 1, _, p => p.runCalls options (Phrase.metered options budget)

namespace Metered

variable {m : Metered α} {r : Reader α}

theorem andThen_eq {f : α → Metered β} {g : α → Reader β} (h : m s = some (r s))
    (hf : ∀ a t, r s = .ok a t → f a t = some (g a t)) : m.andThen f s = some ((r >>= g) s) := by
  unfold andThen
  rw [h]
  cases hr : r s with
  | ok a t => rw [Reader.bind_of_ok hr]; exact hf a t hr
  | error e t => rw [Reader.bind_of_error hr]

theorem between_eq {before after : ParseState → ParseState} (h : m (before s) = some (r (before s))) :
    m.between before after s = some (r.between before after s) := by
  unfold between Reader.between
  rw [h]
  cases r (before s) <;> rfl

theorem nested_eq {limit : Nat} (h : s.depth < limit →
      m { s with depth := s.depth + 1 } = some (r { s with depth := s.depth + 1 })) :
    m.nested limit s = some (r.nested limit s) := by
  unfold nested Reader.nested
  split
  · exact between_eq (h ‹_›)
  · rfl

theorem goal_eq {g : Goal} {m : Metered g.Tree} {ℓ : Nat} (hl : options.maxDepth ≤ s.depth + ℓ)
    (h : ∀ ℓ, options.maxDepth ≤ s.depth + 1 + ℓ → m { s with depth := s.depth + 1 } =
      some ((Grammar.rule g).run options (Goal.read options ℓ) { s with depth := s.depth + 1 })) :
    m.nested options.maxDepth s = some (Goal.read options ℓ g s) := by
  cases ℓ with
  | zero => exact if_neg (by omega)
  | succ ℓ => exact nested_eq fun _ => h ℓ (by omega)

theorem rounds_eq {round : Metered (Option α)} {others : Metered (List α)}
    {round' : Reader (Option α)} (hr : round s = some (round' s))
    (hothers : ∀ a t, round' s = .ok (some a) t →
      t.cursor.ahead.length < s.cursor.ahead.length ∧ others t = some (Reader.many round' t)) :
    rounds round others s = some (Reader.many round' s) := by
  unfold rounds andThen Reader.many
  rw [hr]
  match h : round' s with
  | .error e t => rw [Reader.collect_of_error h]
  | .ok none t => rw [Reader.collect_of_none h]
  | .ok (some a) t =>
    obtain ⟨hlt, ht⟩ := hothers a t h
    have hrest : Reader.many round' t = Reader.collect round' s.cursor.ahead.length t :=
      Reader.collect_eq (Nat.lt_succ_self _) hlt
    simp only [ht, hrest]
    rw [Reader.collect_of_some h hlt]
    cases hc : Reader.collect round' s.cursor.ahead.length t with
    | ok as u => rw [Reader.bind_of_ok hc]; rfl
    | error e u => rw [Reader.bind_of_error hc]

end Metered

end FrontEnd
