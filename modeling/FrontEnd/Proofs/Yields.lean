import FrontEnd.Proofs.Balance
import FrontEnd.Proofs.Progress
/-!
# What successful runs yield

A phrase yields a postcondition at a place if it holds of every successful run from there, of the
value and of the place that is reached. There is one law for every way to make a phrase, so that
what a phrase yields follows from its text.
-/
namespace FrontEnd

variable {α β : Type} {options : ParseOptions} {fuel ℓ : Nat} {b : Bool} {x : Place}

/-- The place of a state. -/
def ParseState.place (s : ParseState) : Place := ⟨s.cursor.ahead, s.toNames⟩

/-- A state at a place, with so many levels of nesting left, where struct literals are allowed or
not. -/
structure ParseState.At (options : ParseOptions) (ℓ : Nat) (b : Bool) (x : Place) (s : ParseState) :
    Prop where
  levels : options.maxDepth - s.depth = ℓ
  literals : s.structLiterals = b
  place : s.place = x

namespace Phrase

variable {below : (g : Goal) → Reader g.Tree}

theorem run_bind (p : Phrase α) (f : α → Phrase β) :
    (p >>= f).run options below = p.run options below >>= fun a => (f a).run options below := by
  rw [bind_eq_andThen]
  induction p with
  | done value => simp [andThen, run]
  | fail expected => rfl
  | act a next ih =>
    funext s
    simp only [andThen, run, ih]
    rfl
  | nested g next ih => simp only [andThen, run, ih, bind_assoc]
  | enclosed body next _ ih => simp only [andThen, run, ih, bind_assoc]
  | structLiterals allowed body next _ ih => simp only [andThen, run, ih, bind_assoc]
  | many round next _ ih => simp only [andThen, run, ih, bind_assoc]

theorem run_inScope (p : Phrase α) :
    (inScope p).run options below = Reader.inScope (p.run options below) :=
  bind_pure _

theorem run_withStructLiterals (p : Phrase α) (allowed : Bool) :
    (withStructLiterals allowed p).run options below =
      Reader.withStructLiterals allowed (p.run options below) :=
  bind_pure _

theorem run_goal (g : Goal) : (goal g).run options below = below g := bind_pure _

theorem run_repeated (round : Phrase (Option α)) :
    (repeated round).run options below = Reader.many (round.run options below) :=
  bind_pure _

/-- Every successful run of a phrase from a place yields a value and reaches a place for which the
postcondition holds. -/
def Yields (options : ParseOptions) (fuel ℓ : Nat) (b : Bool) (p : Phrase α) (x : Place)
    (Q : α → Place → Prop) : Prop :=
  ∀ s a t, s.At options ℓ b x → p.run options (Goal.read options fuel) s = .ok a t →
    ∃ y, t.At options ℓ b y ∧ Q a y

end Phrase

namespace Reader

/-- A successful run in sequence is two successful runs. -/
theorem ok_of_bind {r : Reader α} {f : α → Reader β} {s u : ParseState} {c : β}
    (h : (r >>= f) s = .ok c u) : ∃ a t, r s = .ok a t ∧ f a t = .ok c u := by
  cases hr : r s with
  | ok a t => exact ⟨a, t, rfl, by rw [← h, bind_of_ok hr]⟩
  | error e t => rw [bind_of_error hr] at h; cases h

theorem ok_of_between {before after' : ParseState → ParseState} {r : Reader α} {s t : ParseState}
    {a : α} (h : between before after' r s = .ok a t) :
    ∃ u, r (before s) = .ok a u ∧ t = after' u := by
  unfold between at h
  split at h <;> cases h
  exact ⟨_, ‹_›, rfl⟩

theorem ok_of_nested {limit : Nat} {r : Reader α} {s t : ParseState} {a : α}
    (h : nested limit r s = .ok a t) :
    s.depth < limit ∧ ∃ u, r { s with depth := s.depth + 1 } = .ok a u ∧
      t = { u with depth := u.depth - 1 } := by
  unfold nested at h
  split at h
  · exact ⟨‹_›, ok_of_between h⟩
  · cases h

end Reader

namespace Phrase.Yields

variable {p : Phrase α} {f : α → Phrase β} {Q Q' : α → Place → Prop} {R : β → Place → Prop}
  {k : TokenKind}

theorem pure {a : α} (h : Q a x) : Yields options fuel ℓ b (Pure.pure a) x Q := by
  rintro s c t hs ⟨⟩
  exact ⟨x, hs, h⟩

theorem fail {expected : String} : Yields options fuel ℓ b (Phrase.fail expected) x Q :=
  nofun

theorem bind (hp : Yields options fuel ℓ b p x Q)
    (hf : ∀ a y, Q a y → Yields options fuel ℓ b (f a) y R) :
    Yields options fuel ℓ b (p >>= f) x R := by
  intro s c u hs h
  rw [run_bind] at h
  obtain ⟨a, t, hr, hft⟩ := Reader.ok_of_bind h
  obtain ⟨y, ht, hq⟩ := hp s a t hs hr
  exact hf a y hq t c u ht hft

theorem mono (hp : Yields options fuel ℓ b p x Q) (h : ∀ a y, Q a y → Q' a y) :
    Yields options fuel ℓ b p x Q' := by
  intro s a t hs hr
  obtain ⟨y, ht, hq⟩ := hp s a t hs hr
  exact ⟨y, ht, h a y hq⟩

theorem map {f : α → β} (hp : Yields options fuel ℓ b p x Q) (h : ∀ a y, Q a y → R (f a) y) :
    Yields options fuel ℓ b (f <$> p) x R := by
  rw [map_eq_pure_bind]
  exact hp.bind fun a y hq => pure (h a y hq)

theorem ite {c : Prop} [Decidable c] {q : Phrase α} (hp : c → Yields options fuel ℓ b p x Q)
    (hq : ¬c → Yields options fuel ℓ b q x Q) :
    Yields options fuel ℓ b (if c then p else q) x Q := by
  split
  · exact hp ‹_›
  · exact hq ‹_›

theorem kind {f : TokenKind → Phrase β} (h : Yields options fuel ℓ b (f x.kind) x R) :
    Yields options fuel ℓ b (kind >>= f) x R := by
  intro s a t hs hr
  obtain rfl := hs.place
  exact h s a t hs hr

theorem nextKind {f : TokenKind → Phrase β} (h : Yields options fuel ℓ b (f x.nextKind) x R) :
    Yields options fuel ℓ b (nextKind >>= f) x R := by
  intro s a t hs hr
  obtain rfl := hs.place
  exact h s a t hs hr

theorem kindAfterNext {f : TokenKind → Phrase β}
    (h : Yields options fuel ℓ b (f (kindAt x.rest 2)) x R) :
    Yields options fuel ℓ b (kindAfterNext >>= f) x R := by
  intro s a t hs hr
  obtain rfl := hs.place
  exact h s a t hs hr

theorem current {f : Token → Phrase β}
    (h : ∀ t, x.rest.head? = some t → Yields options fuel ℓ b (f t) x R) :
    Yields options fuel ℓ b (current >>= f) x R := by
  intro s a u hs hr
  obtain rfl := hs.place
  obtain ⟨n, ⟨passed, _ | ⟨t, ts⟩, beyond, file⟩, depth, allowed⟩ := s
  · cases hr
  · exact h t rfl _ a u hs hr

theorem allowsStructLiterals {f : Bool → Phrase β} (h : Yields options fuel ℓ b (f b) x R) :
    Yields options fuel ℓ b (allowsStructLiterals >>= f) x R := by
  intro s a t hs hr
  obtain rfl := hs.literals
  exact h s a t hs hr

theorem isConstant {f : Bool → Phrase β} {name : String}
    (h : Yields options fuel ℓ b (f (options.resolvePatterns && x.names.isConstant name)) x R) :
    Yields options fuel ℓ b (isConstant name >>= f) x R := by
  intro s a t hs hr
  obtain rfl := hs.place
  exact h s a t hs hr

/-- The span that a node gets starts where its first token does. -/
theorem spanFrom {f : Span → Phrase β} {start : Span}
    (h : ∀ sp, sp.start = start.start → Yields options fuel ℓ b (f sp) x R) :
    Yields options fuel ℓ b (spanFrom start >>= f) x R := by
  intro s a t hs hr
  refine h (s.cursor.spanFrom start) ?_ s a t hs hr
  unfold Cursor.spanFrom
  split <;> rfl

/-- The place where a token starts, if one is left. -/
theorem position {f : Position → Phrase β}
    (h : ∀ place, (∀ t, x.rest.head? = some t → place = t.span.start) →
      Yields options fuel ℓ b (f place) x R) :
    Yields options fuel ℓ b (position >>= f) x R := by
  intro s a u hs hr
  obtain rfl := hs.place
  refine h s.cursor.position (fun t ht => ?_) s a u hs hr
  obtain ⟨n, ⟨passed, _ | ⟨t', ts⟩, beyond, file⟩, depth, allowed⟩ := s <;> cases ht
  rfl

theorem take : Yields options fuel ℓ b take x fun t y => x = ⟨t :: y.rest, y.names⟩ := by
  intro s a u hs h
  obtain ⟨levels, literals, rfl⟩ := hs
  obtain ⟨n, ⟨passed, _ | ⟨t, ts⟩, beyond, file⟩, depth, allowed⟩ := s <;> cases h
  exact ⟨_, ⟨levels, literals, rfl⟩, rfl⟩

theorem declare {symbol : Symbol} {place : Position} :
    Yields options fuel ℓ b (declare symbol place) x fun _ y =>
      y = ⟨x.rest, x.names.declare symbol place⟩ := by
  rintro s a u ⟨levels, literals, rfl⟩ ⟨⟩
  exact ⟨_, ⟨levels, literals, rfl⟩, rfl⟩

theorem bindAll (symbols : List Symbol) :
    Yields options fuel ℓ b (bindAll symbols) x fun _ y => y = ⟨x.rest, x.names.bindAll symbols⟩ := by
  induction symbols generalizing x with
  | nil => exact pure rfl
  | cons symbol symbols ih =>
    rintro s a u ⟨levels, literals, rfl⟩ hr
    exact ih { s with toNames := s.bind symbol } a u ⟨levels, literals, rfl⟩ hr

theorem expect : Yields options fuel ℓ b (expect k) x fun t y =>
    t.kind = k ∧ x = ⟨t :: y.rest, y.names⟩ :=
  kind <| ite (fun h => take.mono fun t y hx => ⟨by simpa [hx] using h, hx⟩) fun _ => fail

theorem expectOneOf {ks : List TokenKind} {expected : String} :
    Yields options fuel ℓ b (expectOneOf ks expected) x fun t y =>
      t.kind ∈ ks ∧ x = ⟨t :: y.rest, y.names⟩ := by
  intro s a u hs hr
  obtain ⟨levels, literals, rfl⟩ := hs
  obtain ⟨n, ⟨passed, _ | ⟨t, ts⟩, beyond, file⟩, depth, allowed⟩ := s
  · cases hr
  · by_cases ht : t.kind ∈ ks
    · simp only [Phrase.expectOneOf, run, Act.run, Cursor.ahead?, List.getElem?_cons_zero, ht,
        if_true] at hr
      cases hr
      exact ⟨_, ⟨levels, literals, rfl⟩, ht, rfl⟩
    · simp only [Phrase.expectOneOf, run, Act.run, Cursor.ahead?, List.getElem?_cons_zero, ht,
        if_false] at hr
      cases hr

/-- A token that may be there, as a condition. -/
theorem ifEat {p q : Phrase α}
    (hp : ∀ t y, t.kind = k → x = ⟨t :: y.rest, y.names⟩ → Yields options fuel ℓ b p y Q)
    (hq : x.kind ≠ k → Yields options fuel ℓ b q x Q) :
    Yields options fuel ℓ b (eat k >>= fun eaten => if eaten then p else q) x Q := by
  unfold eat
  rw [bind_assoc]
  refine kind ?_
  split
  · rename_i h
    rw [bind_assoc]
    exact bind take fun t y hx => hp t y (by simpa [hx] using h) hx
  · exact hq ‹_›

/-- A token that may be there. -/
theorem eat : Yields options fuel ℓ b (eat k) x fun
    | true, y => ∃ t, t.kind = k ∧ x = ⟨t :: y.rest, y.names⟩
    | false, y => x.kind ≠ k ∧ y = x := by
  refine kind ?_
  split
  · rename_i h
    exact bind take fun t y hx => pure ⟨t, by simpa [hx] using h, hx⟩
  · exact pure ⟨‹_›, rfl⟩

/-- A token that may be there, as a flag. -/
theorem flag (hk : k ∈ optionalMarks) : Yields options fuel ℓ b (Phrase.eat k) x
    (Derives options.resolvePatterns (.flag k) ℓ b x) := by
  refine eat.mono fun set y h => ?_
  cases set with
  | true =>
    obtain ⟨t, ht, rfl⟩ := h
    exact .flagSet hk ht
  | false =>
    obtain ⟨hx, rfl⟩ := h
    exact .flagUnset hk hx

theorem inScope (hp : Yields options fuel ℓ b p ⟨x.rest, x.names.push⟩ fun a y =>
    Q a ⟨y.rest, y.names.pop⟩) : Yields options fuel ℓ b (inScope p) x Q := by
  rintro s a t ⟨levels, literals, rfl⟩ h
  obtain ⟨_, _, h, ⟨⟩⟩ := Reader.ok_of_bind h
  obtain ⟨u, hu, rfl⟩ := Reader.ok_of_between h
  have hs : ParseState.At options ℓ b ⟨s.place.rest, s.place.names.push⟩
      { s with toNames := s.push } := ⟨levels, literals, rfl⟩
  obtain ⟨y, ⟨levels, literals, rfl⟩, hq⟩ := hp _ _ _ hs hu
  exact ⟨_, ⟨levels, literals, rfl⟩, hq⟩

theorem withStructLiterals {allowed : Bool} (hp : Yields options fuel ℓ allowed p x Q) :
    Yields options fuel ℓ b (withStructLiterals allowed p) x Q := by
  rintro s a t ⟨levels, literals, rfl⟩ h
  obtain ⟨_, _, h, ⟨⟩⟩ := Reader.ok_of_bind h
  obtain ⟨u, hu, rfl⟩ := Reader.ok_of_between h
  have hs : ParseState.At options ℓ allowed s.place { s with structLiterals := allowed } :=
    ⟨levels, rfl, rfl⟩
  obtain ⟨y, ⟨levels, -, rfl⟩, hq⟩ := hp _ _ _ hs hu
  exact ⟨_, ⟨levels, literals, rfl⟩, hq⟩

/-- A goal is read by its rule one level deeper, if a level is left. -/
theorem goal {g : Goal} {Q : g.Tree → Place → Prop}
    (hg : ∀ rounds m, fuel = rounds + 1 → ℓ = m + 1 →
      Yields options rounds m b (Grammar.rule g) x Q) :
    Yields options fuel ℓ b (goal g) x Q := by
  rintro s a t ⟨levels, literals, rfl⟩ h
  obtain ⟨_, _, h, ⟨⟩⟩ := Reader.ok_of_bind h
  cases fuel with
  | zero => cases h
  | succ rounds =>
    obtain ⟨hlt, u, hu, rfl⟩ := Reader.ok_of_nested h
    have hs : ParseState.At options (ℓ - 1) b s.place { s with depth := s.depth + 1 } :=
      ⟨by simp only; omega, literals, rfl⟩
    obtain ⟨y, ⟨-, hliterals, rfl⟩, hq⟩ := hg rounds (ℓ - 1) rfl (by omega) _ _ _ hs hu
    have hdepth : u.depth = s.depth + 1 :=
      (((Grammar.rule g).run_kept options rounds).of_ok hu).depth_eq
    exact ⟨_, ⟨by simp only; omega, hliterals, rfl⟩, hq⟩

/-- A loop that makes progress in every round but the last yields what is kept from the end to the
start of it. -/
theorem repeated {round : Phrase (Option α)} {I : Place → List α → Place → Prop}
    (h : ∀ x, Yields options fuel ℓ b round x fun
      | none, y => I x [] y
      | some a, y => y.rest.length < x.rest.length ∧ ∀ as z, I y as z → I x (a :: as) z) :
    Yields options fuel ℓ b (repeated round) x (I x) := by
  have collect (rounds : Nat) : ∀ s as t x, s.At options ℓ b x → x.rest.length < rounds →
      Reader.collect (round.run options (Goal.read options fuel)) rounds s = .ok as t →
      ∃ y, t.At options ℓ b y ∧ I x as y := by
    induction rounds with
    | zero => intro s as t x _ hlt; omega
    | succ rounds ih =>
      intro s as t x hs hlt hr
      match hround : round.run options (Goal.read options fuel) s with
      | .error e u => rw [Reader.collect_of_error hround] at hr; cases hr
      | .ok none u =>
        rw [Reader.collect_of_none hround] at hr
        cases hr
        exact h x s none t hs hround
      | .ok (some a) u =>
        obtain ⟨y, hu, hless, hcons⟩ := h x s (some a) u hs hround
        have hahead : u.cursor.ahead.length < s.cursor.ahead.length := by
          obtain rfl := hs.place
          obtain rfl := hu.place
          exact hless
        rw [Reader.collect_of_some hround hahead] at hr
        obtain ⟨as', u', hr, ⟨⟩⟩ := Reader.ok_of_bind hr
        obtain ⟨z, ht, hI⟩ := ih u as' t y hu (by omega) hr
        exact ⟨z, ht, hcons as' z hI⟩
  intro s as t hs hr
  obtain ⟨_, _, hr, ⟨⟩⟩ := Reader.ok_of_bind hr
  refine collect _ s as t x hs ?_ hr
  obtain rfl := hs.place
  exact Nat.lt_succ_self _

/-- A loop up to a token of a kind. -/
theorem untilKind {I : Place → List α → Place → Prop} (hnil : ∀ x, x.kind = k → I x [] x)
    (hcons : ∀ x, x.kind ≠ k → Yields options fuel ℓ b p x fun a y =>
      y.rest.length < x.rest.length ∧ ∀ as z, I y as z → I x (a :: as) z) :
    Yields options fuel ℓ b (untilKind k p) x (I x) := by
  refine repeated fun x => kind (ite (fun hx => pure (hnil x hx)) fun hx => ?_)
  exact (hcons x hx).map fun a y h => h

end Phrase.Yields

end FrontEnd
