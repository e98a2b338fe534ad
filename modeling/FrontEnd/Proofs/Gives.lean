import FrontEnd.Proofs.Outline
import FrontEnd.Proofs.Yields
/-!
# Runs that succeed

A phrase gives values from one place to another if every run from near the first place succeeds,
with a value of which the postcondition holds, and stops near the second. A state is near a place if
it differs from it in nothing that reading depends on: the tokens ahead are the same but for their
spans, and the names have the same outline. There is one law for every way to make a phrase, as
there is for what runs yield.
-/
namespace FrontEnd

variable {α β : Type} {options : ParseOptions} {fuel ℓ : Nat} {b : Bool} {x y z : Place}

theorem Token.kind_of_bare {t t' : Token} (h : t'.bare = t.bare) : t'.kind = t.kind := by
  rw [← kind_bare t', h, kind_bare]

theorem Token.value_of_bare {t t' : Token} (h : t'.bare = t.bare) : t'.value = t.value := by
  rw [← value_bare t', h, value_bare]

theorem kindAt_map_bare (ts : List Token) (n : Nat) : kindAt (ts.map Token.bare) n = kindAt ts n := by
  simp [kindAt, Function.comp_def]

/-- A state that is near a place, with so many levels of nesting left, where struct literals are
allowed or not. -/
structure ParseState.Near (options : ParseOptions) (ℓ : Nat) (b : Bool) (x : Place)
    (s : ParseState) : Prop where
  levels : options.maxDepth - s.depth = ℓ
  literals : s.structLiterals = b
  ahead : s.cursor.ahead.map Token.bare = x.rest.map Token.bare
  names : s.toNames.outline = x.names.outline

namespace ParseState.Near

variable {s : ParseState} {t : Token} {i : List Token} {n : Names}

theorem kindAhead_eq (hs : s.Near options ℓ b x) (k : Nat) :
    s.cursor.kindAhead k = kindAt x.rest k := by
  rw [← kindAt_map_bare x.rest, ← hs.ahead, kindAt_map_bare]
  rfl

theorem length_eq (hs : s.Near options ℓ b x) : s.cursor.ahead.length = x.rest.length := by
  simpa using congrArg List.length hs.ahead

/-- The current token is the one at the place, but for its span. -/
theorem cons (hs : s.Near options ℓ b ⟨t :: i, n⟩) : ∃ t' ts, s.cursor.ahead = t' :: ts ∧
    t'.bare = t.bare ∧ ({ s with cursor := s.cursor.advance } : ParseState).Near options ℓ b ⟨i, n⟩ := by
  obtain ⟨levels, literals, hahead, names⟩ := hs
  match h : s.cursor.ahead with
  | [] => simp [h] at hahead
  | t' :: ts =>
    obtain ⟨ht, hts⟩ : t'.bare = t.bare ∧ ts.map Token.bare = i.map Token.bare := by
      simpa [h] using hahead
    exact ⟨t', ts, rfl, ht, levels, literals, by simp [Cursor.advance, h, hts], names⟩

end ParseState.Near

/-- More rounds than there are tokens change nothing. -/
theorem Reader.collect_eq {round : Reader (Option α)} {s : ParseState} {m n : Nat}
    (hm : s.cursor.ahead.length < m) (hn : s.cursor.ahead.length < n) :
    collect round m s = collect round n s := by
  induction m generalizing n s with
  | zero => omega
  | succ m ih =>
    obtain _ | n := n
    · omega
    · match h : round s with
      | .error e t => rw [collect_of_error h, collect_of_error h]
      | .ok none t => rw [collect_of_none h, collect_of_none h]
      | .ok (some a) t =>
        by_cases hlt : t.cursor.ahead.length < s.cursor.ahead.length
        · have hrest : collect round m t = collect round n t := ih (by omega) (by omega)
          rw [collect_of_some h hlt, collect_of_some h hlt]
          exact bind_congr hrest fun _ _ _ => rfl
        · rw [collect_of_stuck h hlt, collect_of_stuck h hlt]

/-- After a round that takes a token a loop goes on as if it began there. -/
theorem Reader.many_of_some {round : Reader (Option α)} {s t : ParseState} {a : α}
    (h : round s = .ok (some a) t) (hlt : t.cursor.ahead.length < s.cursor.ahead.length) :
    many round s = (do return a :: (← many round) : Reader (List α)) t := by
  have hrest : collect round s.cursor.ahead.length t = many round t :=
    collect_eq hlt (Nat.lt_succ_self _)
  rw [many, collect_of_some h hlt]
  exact bind_congr hrest fun _ _ _ => rfl

namespace Phrase

variable {below : (g : Goal) → Reader g.Tree}

/-- Whether struct literals are allowed is no matter to an expected token. -/
theorem run_expect_literals {k : TokenKind} {c : Token} {s t : ParseState} {allowed : Bool}
    (h : (expect k).run options below s = .ok c t) :
    (expect k).run options below { s with structLiterals := allowed } =
      .ok c { t with structLiterals := allowed } := by
  have hrun (s : ParseState) : (expect k).run options below s =
      (if s.cursor.kindAhead 0 = k then take else fail k.describe).run options below s := rfl
  rw [hrun] at h ⊢
  split at h
  · rename_i hk
    rw [if_pos hk]
    obtain ⟨n, ⟨passed, _ | ⟨t', ts⟩, beyond, file⟩, depth, literals⟩ := s <;> cases h
    rfl
  · cases h

end Phrase

/-- Every run of a phrase from near the one place succeeds and stops near the other, with a value for
which the postcondition holds. -/
def Phrase.Gives (options : ParseOptions) (fuel ℓ : Nat) (b : Bool) (p : Phrase α) (x y : Place)
    (Q : α → Prop) : Prop :=
  ∀ s, s.Near options ℓ b x →
    ∃ a t, p.run options (Goal.read options fuel) s = .ok a t ∧ t.Near options ℓ b y ∧ Q a

namespace Phrase.Gives

variable {p : Phrase α} {f : α → Phrase β} {Q Q' : α → Prop} {R : β → Prop} {k : TokenKind}
  {t : Token} {i : List Token} {n : Names}

theorem pure {a : α} (h : Q a) : Gives options fuel ℓ b (Pure.pure a) x x Q :=
  fun s hs => ⟨a, s, rfl, hs, h⟩

theorem bind (hp : Gives options fuel ℓ b p x y Q)
    (hf : ∀ a, Q a → Gives options fuel ℓ b (f a) y z R) :
    Gives options fuel ℓ b (p >>= f) x z R := by
  intro s hs
  obtain ⟨a, t, hr, ht, ha⟩ := hp s hs
  obtain ⟨c, u, hr', hu, hc⟩ := hf a ha t ht
  refine ⟨c, u, ?_, hu, hc⟩
  rw [run_bind, Reader.bind_of_ok hr]
  exact hr'

theorem mono (hp : Gives options fuel ℓ b p x y Q) (h : ∀ a, Q a → Q' a) :
    Gives options fuel ℓ b p x y Q' := by
  intro s hs
  obtain ⟨a, t, hr, ht, ha⟩ := hp s hs
  exact ⟨a, t, hr, ht, h a ha⟩

theorem map {f : α → β} (hp : Gives options fuel ℓ b p x y Q) (h : ∀ a, Q a → R (f a)) :
    Gives options fuel ℓ b (f <$> p) x y R := by
  rw [map_eq_pure_bind]
  exact hp.bind fun a ha => pure (h a ha)

theorem ite_pos {c : Prop} [Decidable c] {q : Phrase α} (hc : c)
    (hp : Gives options fuel ℓ b p x y Q) : Gives options fuel ℓ b (if c then p else q) x y Q := by
  rwa [if_pos hc]

theorem ite_neg {c : Prop} [Decidable c] {q : Phrase α} (hc : ¬c)
    (hq : Gives options fuel ℓ b q x y Q) : Gives options fuel ℓ b (if c then p else q) x y Q := by
  rwa [if_neg hc]

theorem kind {f : TokenKind → Phrase β} (hx : x.kind = k) (h : Gives options fuel ℓ b (f k) x y R) :
    Gives options fuel ℓ b (kind >>= f) x y R := by
  intro s hs
  obtain ⟨a, t, hr, ht⟩ := h s hs
  exact ⟨a, t, by rw [← hr, ← hx, Place.kind, ← hs.kindAhead_eq 0]; rfl, ht⟩

theorem of_kind {f : TokenKind → Phrase β} (h : Gives options fuel ℓ b (Phrase.kind >>= f) x y R) :
    Gives options fuel ℓ b (f x.kind) x y R := by
  intro s hs
  obtain ⟨a, t, hr, ht⟩ := h s hs
  exact ⟨a, t, by rw [← hr, Place.kind, ← hs.kindAhead_eq 0]; rfl, ht⟩

theorem nextKind {f : TokenKind → Phrase β} (hx : x.nextKind = k)
    (h : Gives options fuel ℓ b (f k) x y R) : Gives options fuel ℓ b (nextKind >>= f) x y R := by
  intro s hs
  obtain ⟨a, t, hr, ht⟩ := h s hs
  exact ⟨a, t, by rw [← hr, ← hx, Place.nextKind, ← hs.kindAhead_eq 1]; rfl, ht⟩

theorem kindAfterNext {f : TokenKind → Phrase β} (hx : kindAt x.rest 2 = k)
    (h : Gives options fuel ℓ b (f k) x y R) :
    Gives options fuel ℓ b (kindAfterNext >>= f) x y R := by
  intro s hs
  obtain ⟨a, t, hr, ht⟩ := h s hs
  exact ⟨a, t, by rw [← hr, ← hx, ← hs.kindAhead_eq 2]; rfl, ht⟩

theorem allowsStructLiterals {f : Bool → Phrase β} (h : Gives options fuel ℓ b (f b) x y R) :
    Gives options fuel ℓ b (allowsStructLiterals >>= f) x y R := by
  intro s hs
  obtain ⟨a, t, hr, ht⟩ := h s hs
  exact ⟨a, t, by rw [← hr, ← hs.literals]; rfl, ht⟩

theorem isConstant {f : Bool → Phrase β} {name : String}
    (h : Gives options fuel ℓ b (f (options.resolvePatterns && x.names.isConstant name)) x y R) :
    Gives options fuel ℓ b (isConstant name >>= f) x y R := by
  intro s hs
  obtain ⟨a, t, hr, ht⟩ := h s hs
  exact ⟨a, t, by rw [← hr, ← Names.isConstant_outline hs.names name]; rfl, ht⟩

theorem spanFrom {f : Span → Phrase β} {start : Span}
    (h : ∀ sp, Gives options fuel ℓ b (f sp) x y R) :
    Gives options fuel ℓ b (spanFrom start >>= f) x y R :=
  fun s hs => h (s.cursor.spanFrom start) s hs

theorem position {f : Position → Phrase β} (h : ∀ place, Gives options fuel ℓ b (f place) x y R) :
    Gives options fuel ℓ b (position >>= f) x y R :=
  fun s hs => h s.cursor.position s hs

theorem current {f : Token → Phrase β} (hx : x.kind ≠ .eof)
    (h : ∀ t', t'.kind = x.kind → (∀ t ∈ x.rest.head?, t'.bare = t.bare) →
      Gives options fuel ℓ b (f t') x y R) :
    Gives options fuel ℓ b (current >>= f) x y R := by
  intro s hs
  obtain ⟨_ | ⟨t, i⟩, n⟩ := x
  · exact absurd rfl hx
  obtain ⟨t', ts, hahead, ht, -⟩ := hs.cons
  obtain ⟨a, u, hr, hu⟩ := h t' (Token.kind_of_bare ht) (by simpa using ht) s hs
  refine ⟨a, u, ?_, hu⟩
  rw [← hr]
  simp [Phrase.current, andThen, run, Act.run, Cursor.ahead?, hahead]

theorem take : Gives options fuel ℓ b take ⟨t :: i, n⟩ ⟨i, n⟩ fun t' => t'.bare = t.bare := by
  intro s hs
  obtain ⟨t', ts, hahead, ht, hnext⟩ := hs.cons
  refine ⟨t', { s with cursor := s.cursor.advance }, ?_, hnext, ht⟩
  simp [Phrase.take, run, Act.run, Cursor.ahead?, hahead]
  rfl

theorem declare {symbol symbol' : Symbol} {place place' : Position}
    (h : symbol.outline = symbol'.outline) :
    Gives options fuel ℓ b (declare symbol place) x ⟨x.rest, x.names.declare symbol' place'⟩
      fun _ => True := fun s hs =>
  ⟨(), { s with toNames := s.declare symbol place }, rfl,
    ⟨hs.levels, hs.literals, hs.ahead, Names.outline_declare hs.names h _ _⟩, trivial⟩

theorem bindAll {ss ss' : List Symbol} (h : ss.map Symbol.outline = ss'.map Symbol.outline) :
    Gives options fuel ℓ b (bindAll ss) x ⟨x.rest, x.names.bindAll ss'⟩ fun _ => True := by
  induction ss generalizing ss' x with
  | nil =>
    cases ss' with
    | nil => exact pure trivial
    | cons => cases h
  | cons symbol ss ih =>
    cases ss' with
    | nil => cases h
    | cons symbol' ss' =>
      obtain ⟨h, hss⟩ := List.cons.inj h
      intro s hs
      exact ih (x := ⟨x.rest, x.names.bind symbol'⟩) hss { s with toNames := s.bind symbol }
        ⟨hs.levels, hs.literals, hs.ahead, Names.outline_bind hs.names h⟩

theorem expect (h : t.kind = k) :
    Gives options fuel ℓ b (expect k) ⟨t :: i, n⟩ ⟨i, n⟩ fun t' => t'.bare = t.bare :=
  kind h (ite_pos rfl take)

theorem expectOneOf {ks : List TokenKind} {expected : String} (h : t.kind ∈ ks) :
    Gives options fuel ℓ b (expectOneOf ks expected) ⟨t :: i, n⟩ ⟨i, n⟩ fun t' =>
      t'.bare = t.bare := by
  intro s hs
  obtain ⟨t', ts, hahead, ht, -⟩ := hs.cons
  have htake : Gives options fuel ℓ b Phrase.take ⟨t :: i, n⟩ ⟨i, n⟩ fun t' => t'.bare = t.bare := take
  obtain ⟨a, u, hr, hu⟩ := htake s hs
  refine ⟨a, u, ?_, hu⟩
  rw [← hr]
  simp [Phrase.expectOneOf, run, Act.run, Cursor.ahead?, hahead, Token.kind_of_bare ht, h]

/-- A token that is there, as a condition. -/
theorem ifEat {p q : Phrase α} (h : t.kind = k) (hp : Gives options fuel ℓ b p ⟨i, n⟩ y Q) :
    Gives options fuel ℓ b (eat k >>= fun eaten => if eaten then p else q) ⟨t :: i, n⟩ y Q := by
  unfold eat
  rw [bind_assoc]
  refine kind h ?_
  rw [if_pos rfl, bind_assoc]
  exact bind take fun _ _ => hp

/-- A token that is not there, as a condition. -/
theorem ifNotEat {p q : Phrase α} (h : x.kind ≠ k) (hq : Gives options fuel ℓ b q x y Q) :
    Gives options fuel ℓ b (eat k >>= fun eaten => if eaten then p else q) x y Q := by
  unfold eat
  rw [bind_assoc]
  refine kind rfl ?_
  rwa [if_neg h]

/-- What is done without the token does not matter where it is there. -/
theorem ifEat_else {p q q' : Phrase α}
    (h : Gives options fuel ℓ b (eat k >>= fun eaten => if eaten then p else q) x y Q)
    (hq : x.kind ≠ k → Gives options fuel ℓ b q' x y Q) :
    Gives options fuel ℓ b (eat k >>= fun eaten => if eaten then p else q') x y Q := by
  by_cases hx : x.kind = k
  · unfold eat at h ⊢
    rw [bind_assoc] at h ⊢
    have htake := of_kind h
    refine kind rfl ?_
    rw [if_pos hx, bind_assoc] at htake ⊢
    exact htake
  · exact ifNotEat hx (hq hx)

theorem eat (h : t.kind = k) : Gives options fuel ℓ b (eat k) ⟨t :: i, n⟩ ⟨i, n⟩ (· = true) :=
  kind h (ite_pos rfl (bind take fun _ _ => pure rfl))

theorem notEat (h : x.kind ≠ k) : Gives options fuel ℓ b (Phrase.eat k) x x (· = false) :=
  kind rfl (ite_neg h (pure rfl))

theorem inScope (hp : Gives options fuel ℓ b p ⟨x.rest, x.names.push⟩ y Q) :
    Gives options fuel ℓ b (inScope p) x ⟨y.rest, y.names.pop⟩ Q := by
  intro s hs
  obtain ⟨a, t, hr, ht, ha⟩ := hp { s with toNames := s.push }
    ⟨hs.levels, hs.literals, hs.ahead, Names.outline_push hs.names⟩
  refine ⟨a, { t with toNames := t.pop }, ?_,
    ⟨ht.levels, ht.literals, ht.ahead, Names.outline_pop ht.names⟩, ha⟩
  simp only [run_inScope, Reader.inScope, Reader.between, hr]

theorem withStructLiterals {allowed : Bool} (hp : Gives options fuel ℓ allowed p x y Q) :
    Gives options fuel ℓ b (withStructLiterals allowed p) x y Q := by
  intro s hs
  obtain ⟨a, t, hr, ht, ha⟩ := hp { s with structLiterals := allowed }
    ⟨hs.levels, rfl, hs.ahead, hs.names⟩
  refine ⟨a, { t with structLiterals := s.structLiterals }, ?_,
    ⟨ht.levels, hs.literals, ht.ahead, ht.names⟩, ha⟩
  simp only [run_withStructLiterals, Reader.withStructLiterals, Reader.between, hr]

/-- A goal is given by its rule one level deeper. -/
theorem goal {g : Goal} {Q : g.Tree → Prop}
    (hg : Gives options fuel ℓ b (Grammar.rule g) x y Q) :
    Gives options (fuel + 1) (ℓ + 1) b (goal g) x y Q := by
  intro s hs
  have hlevels := hs.levels
  obtain ⟨a, t, hr, ht, ha⟩ := hg { s with depth := s.depth + 1 }
    ⟨by simp only; omega, hs.literals, hs.ahead, hs.names⟩
  have hdepth : t.depth = s.depth + 1 :=
    (((Grammar.rule g).run_kept options fuel).of_ok hr).depth_eq
  refine ⟨a, { t with depth := t.depth - 1 },
    ?_, ⟨by simp only [hdepth]; omega, ht.literals, ht.ahead, ht.names⟩, ha⟩
  have hlt : s.depth < options.maxDepth := by omega
  simp only [run_goal, Goal.read, Reader.nested, hlt, if_true, Reader.between, hr]

section Loops

variable {γ : Type} {round : Phrase (Option α)} {f : List α → Phrase β}

theorem repeatedNil (h : Gives options fuel ℓ b round x y (· = none)) :
    Gives options fuel ℓ b (repeated round) x y (· = []) := by
  intro s hs
  obtain ⟨_, t, hr, ht, rfl⟩ := h s hs
  refine ⟨[], t, ?_, ht, rfl⟩
  rw [run_repeated, Reader.many, Reader.collect_of_none hr]

/-- After a round that makes progress a loop goes on as if it began there. -/
theorem repeatedCons (hlt : y.rest.length < x.rest.length)
    (h : Gives options fuel ℓ b round x y fun a => ∃ a', a = some a' ∧ Q a')
    (hrest : ∀ a, Q a → Gives options fuel ℓ b (repeated round >>= fun as => f (a :: as)) y z R) :
    Gives options fuel ℓ b (repeated round >>= f) x z R := by
  intro s hs
  obtain ⟨_, t, hr, ht, a, rfl, ha⟩ := h s hs
  obtain ⟨c, v, hrs, hv⟩ := hrest a ha t ht
  rw [run_bind, run_repeated] at hrs
  obtain ⟨as, u, hmany, hf⟩ := Reader.ok_of_bind hrs
  refine ⟨c, v, ?_, hv⟩
  have hless : t.cursor.ahead.length < s.cursor.ahead.length := by
    rwa [ht.length_eq, hs.length_eq]
  rw [run_bind, run_repeated, ← hf]
  refine Reader.bind_of_ok ?_
  rw [Reader.many_of_some hr hless, Reader.bind_of_ok hmany]
  rfl

theorem untilKindNil (h : x.kind = k) : Gives options fuel ℓ b (untilKind k p) x x (· = []) :=
  repeatedNil (kind h (ite_pos rfl (pure rfl)))

theorem untilKindCons (h : x.kind ≠ k) (hlt : y.rest.length < x.rest.length)
    (hp : Gives options fuel ℓ b p x y Q)
    (hrest : ∀ a, Q a → Gives options fuel ℓ b (untilKind k p >>= fun as => f (a :: as)) y z R) :
    Gives options fuel ℓ b (untilKind k p >>= f) x z R :=
  repeatedCons hlt (kind rfl (ite_neg h (hp.map fun a ha => ⟨a, rfl, ha⟩))) hrest

theorem after?None (h : x.kind ≠ k) : Gives options fuel ℓ b (after? k p) x x (· = none) :=
  ifNotEat h (pure rfl)

theorem after?Some (h : t.kind = k) (hp : Gives options fuel ℓ b p ⟨i, n⟩ y Q) :
    Gives options fuel ℓ b (after? k p) ⟨t :: i, n⟩ y fun a => ∃ a', a = some a' ∧ Q a' :=
  ifEat h (hp.map fun a ha => ⟨a, rfl, ha⟩)

theorem eachAfterNil (h : x.kind ≠ k) : Gives options fuel ℓ b (eachAfter k p) x x (· = []) :=
  repeatedNil (after?None h)

theorem eachAfterCons (h : t.kind = k) (hle : y.rest.length ≤ i.length)
    (hp : Gives options fuel ℓ b p ⟨i, n⟩ y Q)
    (hrest : ∀ a, Q a → Gives options fuel ℓ b (eachAfter k p >>= fun as => f (a :: as)) y z R) :
    Gives options fuel ℓ b (eachAfter k p >>= f) ⟨t :: i, n⟩ z R :=
  repeatedCons (Nat.lt_succ_of_le hle) (after?Some h hp) hrest

theorem afterFirstNil (h : x.kind ≠ .comma) :
    Gives options fuel ℓ b (afterFirst k p) x x (· = []) :=
  repeatedNil (ifNotEat h (pure rfl))

theorem afterFirstComma {c : Token} (h : t.kind = .comma) (hc : c.kind = k) :
    Gives options fuel ℓ b (afterFirst k p) ⟨t :: c :: i, n⟩ ⟨c :: i, n⟩ (· = []) :=
  repeatedNil (ifEat h (kind hc (ite_pos rfl (pure rfl))))

theorem afterFirstCons (h : t.kind = .comma) (hk : kindAt i 0 ≠ k) (hle : y.rest.length ≤ i.length)
    (hp : Gives options fuel ℓ b p ⟨i, n⟩ y Q)
    (hrest : ∀ a, Q a → Gives options fuel ℓ b (afterFirst k p >>= fun as => f (a :: as)) y z R) :
    Gives options fuel ℓ b (afterFirst k p >>= f) ⟨t :: i, n⟩ z R :=
  repeatedCons (Nat.lt_succ_of_le hle)
    (ifEat h (kind rfl (ite_neg hk (hp.map fun a ha => ⟨a, rfl, ha⟩)))) hrest

theorem commaListNil (h : x.kind = k) : Gives options fuel ℓ b (commaList k p) x x (· = []) :=
  kind h (ite_pos rfl (pure rfl))

theorem commaListCons (h : x.kind ≠ k) (hp : Gives options fuel ℓ b p x y Q)
    (hrest : ∀ a, Q a → Gives options fuel ℓ b (afterFirst k p >>= fun as => f (a :: as)) y z R) :
    Gives options fuel ℓ b (commaList k p >>= f) x z R := by
  unfold commaList
  rw [bind_assoc]
  refine kind rfl ?_
  rw [if_neg h, bind_assoc]
  refine bind hp fun a ha => ?_
  rw [bind_assoc]
  exact hrest a ha

/-- What is given up to a closing token is given also if something else is done with it and with
the token. -/
theorem closed {g : α → β} {f : α → Token → Phrase γ} {S : γ → Prop}
    (h : Gives options fuel ℓ b (p >>= fun a => Phrase.expect k >>= fun _ => Pure.pure (g a)) x y R)
    (hf : ∀ a c, R (g a) → Gives options fuel ℓ b (f a c) y z S) :
    Gives options fuel ℓ b (p >>= fun a => Phrase.expect k >>= f a) x z S := by
  intro s hs
  obtain ⟨_, u, hr, hu, ha⟩ := h s hs
  rw [run_bind] at hr
  obtain ⟨a, t, hp, hr⟩ := Reader.ok_of_bind hr
  rw [run_bind] at hr
  obtain ⟨c, u, hc, ⟨⟩⟩ := Reader.ok_of_bind hr
  obtain ⟨d, v, hr, hv⟩ := hf a c ha u hu
  refine ⟨d, v, ?_, hv⟩
  rw [run_bind, Reader.bind_of_ok hp, run_bind, Reader.bind_of_ok hc, hr]

/-- The closing token may be read where struct literals are allowed or not. -/
theorem closedLiterals {allowed : Bool} {g : α → β} {f : α → Token → Phrase γ} {S : γ → Prop}
    (h : Gives options fuel ℓ allowed
      (p >>= fun a => Phrase.expect k >>= fun _ => Pure.pure (g a)) x y R)
    (hf : ∀ a c, R (g a) → Gives options fuel ℓ b (f a c) y z S) :
    Gives options fuel ℓ b
      (Phrase.withStructLiterals allowed p >>= fun a => Phrase.expect k >>= f a) x z S := by
  refine closed (g := g) (R := R) (fun s hs => ?_) hf
  obtain ⟨_, u, hr, hu, ha⟩ := h { s with structLiterals := allowed }
    ⟨hs.levels, rfl, hs.ahead, hs.names⟩
  rw [run_bind] at hr
  obtain ⟨a, t, hp, hr⟩ := Reader.ok_of_bind hr
  rw [run_bind] at hr
  obtain ⟨c, u, hc, ⟨⟩⟩ := Reader.ok_of_bind hr
  refine ⟨g a, { u with structLiterals := s.structLiterals }, ?_,
    ⟨hu.levels, hs.literals, hu.ahead, hu.names⟩, ha⟩
  have hliterals : (Phrase.withStructLiterals allowed p).run options (Goal.read options fuel) s =
      .ok a { t with structLiterals := s.structLiterals } := by
    simp only [run_withStructLiterals, Reader.withStructLiterals, Reader.between, hp]
  rw [run_bind, Reader.bind_of_ok hliterals, run_bind, Reader.bind_of_ok (run_expect_literals hc)]
  rfl

end Loops

end Phrase.Gives

end FrontEnd
