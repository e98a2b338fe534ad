import FrontEnd.Proofs.NestingLimit
import FrontEnd.Proofs.Yields
/-!
# Starting deeper

How many levels have been entered matters to a run only where none is left. A run that starts some
levels deeper goes the same way, so many levels deeper, or it fails for want of a level.
-/
namespace FrontEnd

variable {α β : Type} {options : ParseOptions} {limit k : Nat}

def ParseState.sink (k : Nat) (s : ParseState) : ParseState := { s with depth := s.depth + k }

@[simp] theorem ParseState.cursor_sink (s : ParseState) : (s.sink k).cursor = s.cursor := rfl

def sunk (k : Nat) : EStateM.Result SyntaxError ParseState α → EStateM.Result SyntaxError ParseState α
  | .ok a t => .ok a (t.sink k)
  | .error e t => .error e (t.sink k)

namespace Reader

/-- From every state the second run does, so many levels deeper, what the first does, or fails for
want of a level. -/
def Sinks (limit k : Nat) (r r' : Reader α) : Prop :=
  ∀ s, r'.FailsDeep limit (s.sink k) ∨ r' (s.sink k) = sunk k (r s)

namespace Sinks

variable {r r' : Reader α} {s : ParseState}

theorem pure (a : α) : (Pure.pure a : Reader α).Sinks limit k (Pure.pure a) := fun _ => .inr rfl

theorem fail (expected : String) : (fail expected : Reader α).Sinks limit k (fail expected) :=
  fun _ => .inr rfl

theorem bind {f f' : α → Reader β} (hr : r.Sinks limit k r')
    (hf : ∀ a, (f a).Sinks limit k (f' a)) : (r >>= f).Sinks limit k (r' >>= f') := by
  intro s
  rcases hr s with ⟨place, t, h⟩ | h
  · exact .inl ⟨place, t, bind_of_error h⟩
  · cases hs : r s with
    | error e t =>
      rw [hs] at h
      exact .inr (by rw [bind_of_error hs, bind_of_error h]; rfl)
    | ok a t =>
      rw [hs] at h
      have hbind' : (r' >>= f') (s.sink k) = f' a (t.sink k) := bind_of_ok h
      rw [FailsDeep, bind_of_ok hs, hbind']
      exact hf a t

/-- Around the runs the state is changed in the same way at all depths. -/
theorem between {before after' : ParseState → ParseState} (hr : r.Sinks limit k r')
    (hb : before (s.sink k) = (before s).sink k)
    (ha : after' ((r.after (before s)).sink k) = (after' (r.after (before s))).sink k) :
    (Reader.between before after' r').FailsDeep limit (s.sink k) ∨
      Reader.between before after' r' (s.sink k) = sunk k (Reader.between before after' r s) := by
  rcases hr (before s) with ⟨place, t, h⟩ | h
  · exact .inl ⟨place, after' t, between_of_error (hb ▸ h)⟩
  · right
    rw [← hb] at h
    cases hs : r (before s) with
    | ok a t =>
      rw [hs] at h
      rw [after_of_ok hs] at ha
      rw [between_of_ok hs, between_of_ok h, ha]
      rfl
    | error e t =>
      rw [hs] at h
      rw [after_of_error hs] at ha
      rw [between_of_error hs, between_of_error h, ha]
      rfl

/-- Where the deeper run has a level left, the other has one too, and after both the levels that they
have entered are left again. -/
theorem nested (hr : r.Sinks limit k r') (hk : r.Keeps ParseState.Kept) :
    (nested limit r).Sinks limit k (nested limit r') := by
  intro s
  by_cases hs' : (s.sink k).depth < limit
  · have hs : s.depth < limit := Nat.lt_of_le_of_lt (Nat.le_add_right _ _) hs'
    have hrun : Reader.nested limit r s = Reader.between _ _ r s := if_pos hs
    have hrun' : Reader.nested limit r' (s.sink k) = Reader.between _ _ r' (s.sink k) := if_pos hs'
    rw [FailsDeep, hrun, hrun']
    refine hr.between ?_ ?_
    · simp only [ParseState.sink]
      congr 1
      omega
    · have hdepth : (r.after { s with depth := s.depth + 1 }).depth = s.depth + 1 :=
        (hk { s with depth := s.depth + 1 }).depth_eq
      simp only [ParseState.sink, hdepth]
      congr 1
      omega
  · exact .inl ⟨s.cursor.position, s.sink k, if_neg hs'⟩

theorem collect {round round' : Reader (Option α)} (hr : round.Sinks limit k round') (fuel : Nat) :
    (collect round fuel).Sinks limit k (collect round' fuel) := by
  induction fuel with
  | zero => exact .pure []
  | succ fuel ih =>
    intro s
    rcases hr s with ⟨place, t, h⟩ | h
    · exact .inl ⟨place, t, collect_of_error h⟩
    · match hs : round s with
      | .error e t =>
        rw [hs] at h
        exact .inr (by rw [collect_of_error hs, collect_of_error h]; rfl)
      | .ok none t =>
        rw [hs] at h
        exact .inr (by rw [collect_of_none hs, collect_of_none h]; rfl)
      | .ok (some a) t =>
        rw [hs] at h
        by_cases hlt : t.cursor.ahead.length < s.cursor.ahead.length
        · rw [FailsDeep, collect_of_some hs hlt, collect_of_some h hlt]
          exact ih.bind (fun as => .pure (a :: as)) t
        · exact .inr (by rw [collect_of_stuck hs hlt, collect_of_stuck h hlt]; rfl)

end Sinks

end Reader

/-- No step looks at the levels. -/
theorem Act.run_sink (a : Act β) (s : ParseState) :
    a.run options (s.sink k) = ((a.run options s).1, (a.run options s).2.sink k) := by
  cases a with
  | take =>
    obtain ⟨n, ⟨passed, _ | ⟨t, ts⟩, beyond, file⟩, depth, allowed⟩ := s <;> rfl
  | _ => rfl

theorem Phrase.run_sinks {below below' : (g : Goal) → Reader g.Tree}
    (hb : ∀ g, (below g).Sinks limit k (below' g)) (p : Phrase α) :
    (p.run options below).Sinks limit k (p.run options below') := by
  induction p with
  | done value => exact .pure value
  | fail expected => exact .fail expected
  | act a next ih =>
    intro s
    simp only [Reader.FailsDeep, run, Act.run_sink]
    exact ih _ _
  | nested g next ih => exact (hb g).bind ih
  | enclosed body next ihb ih =>
    exact Reader.Sinks.bind (fun s => ihb.between rfl rfl) ih
  | structLiterals allowed body next ihb ih =>
    exact Reader.Sinks.bind (fun s => ihb.between rfl rfl) ih
  | many round next ihr ih => exact Reader.Sinks.bind (fun s => ihr.collect _ s) ih

/-- A goal is read deeper as it is read, also with less fuel. -/
theorem Goal.read_sinks {fuel fuel' : Nat} (h : fuel' ≤ fuel) (g : Goal) :
    (Goal.read options fuel g).Sinks options.maxDepth k (Goal.read options fuel' g) := by
  induction fuel' generalizing fuel g with
  | zero => exact fun s => .inl ⟨_, _, rfl⟩
  | succ fuel' ih =>
    obtain ⟨fuel, rfl⟩ := Nat.exists_eq_add_of_le' (Nat.lt_of_lt_of_le fuel'.succ_pos h)
    rw [Goal.read, Goal.read]
    refine (Phrase.run_sinks (fun g => ih (Nat.le_of_succ_le_succ h) g) _).nested ?_
    exact (ParseState.Kept.invariant options).run ((ParseState.Kept.invariant options).goal fuel) _

end FrontEnd
