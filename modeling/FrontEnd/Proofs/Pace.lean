import FrontEnd.Proofs.Metered
import FrontEnd.Proofs.Soundness
/-!
# How deep calls stand in each other

Between two tokens that are taken, calls stand in each other only so deep: a goal that is reached
before a token is taken has a smaller pace than the one that it is reached from. So with each token
that is taken the depth of calls can grow by a fixed number, and it is bounded by the number of tokens,
whatever the number of levels that may be nested.
-/
namespace FrontEnd

open Phrase

variable {α β : Type} {options : ParseOptions}

/-- From the first state to the second only tokens are passed: none is put back, and no end of the
input is passed either. -/
structure ParseState.Passes (s t : ParseState) : Prop where
  tokens_eq : t.cursor.tokens = s.cursor.tokens
  beyond_eq : t.cursor.beyond = s.cursor.beyond
  suffix : t.cursor.ahead <:+ s.cursor.ahead

namespace ParseState.Passes

variable {s t u : ParseState}

theorem refl (s : ParseState) : s.Passes s := ⟨rfl, rfl, List.suffix_rfl⟩

theorem trans (h : s.Passes t) (h' : t.Passes u) : s.Passes u :=
  ⟨h'.tokens_eq.trans h.tokens_eq, h'.beyond_eq.trans h.beyond_eq, h'.suffix.trans h.suffix⟩

theorem length_le (h : s.Passes t) : t.cursor.ahead.length ≤ s.cursor.ahead.length :=
  h.suffix.length_le

theorem take (options : ParseOptions) (s : ParseState) : s.Passes (Act.take.run options s).2 := by
  obtain ⟨n, ⟨passed, _ | ⟨t, ts⟩, beyond, file⟩, depth, allowed⟩ := s
  · exact refl _
  · exact ⟨Cursor.tokens_advance _, rfl, List.suffix_cons t ts⟩

theorem invariant (options : ParseOptions) : Invariant options ParseState.Passes where
  refl := refl
  trans _ _ _ h h' := h.trans h'
  act a s := by
    cases a with
    | take => exact take options s
    | _ => exact ⟨rfl, rfl, List.suffix_rfl⟩
  nested _ h := ⟨h.tokens_eq, h.beyond_eq, h.suffix⟩
  inScope h := ⟨h.tokens_eq, h.beyond_eq, h.suffix⟩
  structLiterals _ h := ⟨h.tokens_eq, h.beyond_eq, h.suffix⟩

/-- The cursor goes forward. -/
theorem index_le (h : s.Passes t) : s.cursor.index ≤ t.cursor.index := by
  have hlength := congrArg List.length h.tokens_eq
  have hbeyond := h.beyond_eq
  have hle := h.length_le
  simp only [Cursor.tokens, List.length_append, List.length_reverse] at hlength
  simp only [Cursor.index]
  omega

theorem index_lt (h : s.Passes t) (hlt : t.cursor.ahead.length < s.cursor.ahead.length) :
    s.cursor.index < t.cursor.index := by
  have hlength := congrArg List.length h.tokens_eq
  have hbeyond := h.beyond_eq
  simp only [Cursor.tokens, List.length_append, List.length_reverse] at hlength
  simp only [Cursor.index]
  omega

/-- The cursor stays inside the list of tokens. -/
theorem index_le_length (h : s.Passes t) (hs : s.cursor.beyond = 0) :
    t.cursor.index ≤ s.cursor.tokens.length := by
  have hbeyond := h.beyond_eq.trans hs
  rw [← h.tokens_eq]
  simp [Cursor.index, Cursor.tokens, hbeyond]

end ParseState.Passes

namespace Phrase

theorem run_passes (p : Phrase α) (options : ParseOptions) (fuel : Nat) :
    (p.run options (Goal.read options fuel)).Keeps ParseState.Passes :=
  (ParseState.Passes.invariant options).run ((ParseState.Passes.invariant options).goal fuel) p

/-- Every successful run of a phrase takes a token. -/
def Takes (options : ParseOptions) (p : Phrase α) : Prop :=
  ∀ fuel s a t, p.run options (Goal.read options fuel) s = .ok a t →
    t.cursor.ahead.length < s.cursor.ahead.length

/-- Every run of a round that yields something takes a token. -/
def TakesOrLeaves (options : ParseOptions) (round : Phrase (Option α)) : Prop :=
  ∀ fuel s a t, round.run options (Goal.read options fuel) s = .ok (some a) t →
    t.cursor.ahead.length < s.cursor.ahead.length

namespace Takes

variable {p : Phrase α} {f : α → Phrase β}

theorem of_yields (hp : ∀ fuel ℓ b x, Yields options fuel ℓ b p x fun _ y =>
    y.rest.length < x.rest.length) : p.Takes options := by
  intro fuel s a t h
  obtain ⟨y, ⟨-, -, rfl⟩, hlt⟩ := hp fuel _ _ _ s a t ⟨rfl, rfl, rfl⟩ h
  exact hlt

theorem of_sound {σ : Form} {p : Phrase σ.Tree} (hp : ∀ fuel, p.Sound options fuel σ)
    (hσ : σ.Solid) : p.Takes options :=
  of_yields fun fuel _ _ _ => Yields.mono (hp fuel) fun _ _ h => h.length_lt hσ

theorem bind_left (hp : p.Takes options) : (p >>= f).Takes options := by
  intro fuel s b u h
  rw [run_bind] at h
  obtain ⟨a, t, hr, hf⟩ := Reader.ok_of_bind h
  exact Nat.lt_of_le_of_lt ((run_passes _ options fuel).of_ok hf).length_le (hp fuel s a t hr)

theorem bind_right (hf : ∀ a, (f a).Takes options) : (p >>= f).Takes options := by
  intro fuel s b u h
  rw [run_bind] at h
  obtain ⟨a, t, hr, hft⟩ := Reader.ok_of_bind h
  exact Nat.lt_of_lt_of_le (hf a fuel t b u hft) ((run_passes _ options fuel).of_ok hr).length_le

theorem fail {expected : String} : (Phrase.fail expected : Phrase α).Takes options := nofun

theorem take : Phrase.take.Takes options :=
  of_yields fun _ _ _ _ => Yields.take.mono fun _ _ h => h ▸ Nat.lt_succ_self _

theorem map {f : α → β} (hp : p.Takes options) : (f <$> p).Takes options := by
  rw [map_eq_pure_bind]
  exact hp.bind_left

theorem ite {c : Prop} [Decidable c] {q : Phrase α} (hp : p.Takes options) (hq : q.Takes options) :
    (if c then p else q).Takes options := by
  split
  · exact hp
  · exact hq

theorem expect {k : TokenKind} : (Phrase.expect k).Takes options :=
  .bind_right fun _ => .ite .take .fail

theorem goal {g : Goal} (hg : (Grammar.rule g).Takes options) : (Phrase.goal g).Takes options := by
  intro fuel s a t h
  rw [run_goal] at h
  cases fuel with
  | zero => cases h
  | succ fuel =>
    obtain ⟨-, u, hu, rfl⟩ := Reader.ok_of_nested h
    exact hg fuel { s with depth := s.depth + 1 } a u hu

end Takes

namespace TakesOrLeaves

variable {p q : Phrase (Option α)} {k : TokenKind}

theorem of_takes (hp : p.Takes options) : p.TakesOrLeaves options :=
  fun fuel s a t h => hp fuel s (some a) t h

theorem pure_none : (pure none : Phrase (Option α)).TakesOrLeaves options := nofun

theorem ite {c : Prop} [Decidable c] (hp : p.TakesOrLeaves options)
    (hq : q.TakesOrLeaves options) : (if c then p else q).TakesOrLeaves options := by
  split
  · exact hp
  · exact hq

theorem bind {p : Phrase β} {f : β → Phrase (Option α)}
    (hf : ∀ b, (f b).TakesOrLeaves options) : (p >>= f).TakesOrLeaves options := by
  intro fuel s a u h
  rw [run_bind] at h
  obtain ⟨b, t, hr, hft⟩ := Reader.ok_of_bind h
  exact Nat.lt_of_lt_of_le (hf b fuel t a u hft) ((run_passes _ options fuel).of_ok hr).length_le

/-- A round that takes its first token if it goes on. -/
theorem ifEat (hq : q.TakesOrLeaves options) :
    (eat k >>= fun eaten => if eaten then p else q).TakesOrLeaves options := by
  intro fuel s a u h
  rw [run_bind] at h
  obtain ⟨eaten, t, hr, hft⟩ := Reader.ok_of_bind h
  cases eaten with
  | true =>
    obtain ⟨y, ⟨-, -, rfl⟩, c, -, hs⟩ := Yields.eat s true t ⟨rfl, rfl, rfl⟩ hr
    have hlt : t.cursor.ahead.length < s.cursor.ahead.length := by
      have hahead : s.cursor.ahead = c :: t.cursor.ahead := congrArg Place.rest hs
      rw [hahead]
      exact Nat.lt_succ_self _
    exact Nat.lt_of_le_of_lt ((run_passes _ options fuel).of_ok hft).length_le hlt
  | false =>
    exact Nat.lt_of_lt_of_le (hq fuel t a u hft) ((run_passes _ options fuel).of_ok hr).length_le

end TakesOrLeaves

end Phrase

/-- How deep calls may stand in each other right after a token is taken. -/
abbrev Phrase.stride : Nat := 6

/-- How deep calls stand in each other before a goal takes its first token. -/
def Goal.pace : Goal → Nat
  | .ty | .pattern | .elseIf => 0
  | .block | .arm => 2
  | .expr _ | .blockLike => 3
  | .element => 4

/-- How deep calls may stand in each other after a step. -/
def Act.pace : Act α → α → Nat → Nat
  | .take, some _, k => max k Phrase.stride
  | _, _, k => k

namespace Phrase

/-- Before a phrase takes a token, calls stand in each other no deeper than the first number says;
where it ends, they may stand as deep as the second says; and each round of a loop that goes on
takes a token. -/
def Paced (options : ParseOptions) : {α : Type} → Phrase α → Nat → Nat → Prop
  | _, .done _, k, j => j ≤ k
  | _, .fail _, _, _ => True
  | _, .act a next, k, j => ∀ b, (next b).Paced options (a.pace b k) j
  | _, .nested g next, k, j => g.pace < k ∧ ∀ t, (next t).Paced options (max k stride) j
  | _, .enclosed body next, k, j =>
    0 < k ∧ body.Paced options (k - 1) 0 ∧ ∀ b, (next b).Paced options k j
  | _, .structLiterals _ body next, k, j =>
    0 < k ∧ body.Paced options (k - 1) 0 ∧ ∀ b, (next b).Paced options k j
  | _, .many round next, k, j =>
    0 < k ∧ round.TakesOrLeaves options ∧ round.Paced options (k - 1) 0 ∧
      ∀ bs, (next bs).Paced options k j

/-- Every round of every loop in a phrase takes a token or ends the loop. -/
def LoopsAdvance (options : ParseOptions) : {α : Type} → Phrase α → Prop
  | _, .done _ => True
  | _, .fail _ => True
  | _, .act _ next => ∀ b, (next b).LoopsAdvance options
  | _, .nested _ next => ∀ t, (next t).LoopsAdvance options
  | _, .enclosed body next => body.LoopsAdvance options ∧ ∀ b, (next b).LoopsAdvance options
  | _, .structLiterals _ body next => body.LoopsAdvance options ∧ ∀ b, (next b).LoopsAdvance options
  | _, .many round next =>
    round.TakesOrLeaves options ∧ round.LoopsAdvance options ∧ ∀ bs, (next bs).LoopsAdvance options

theorem Paced.loopsAdvance {p : Phrase α} {k j : Nat} (hp : p.Paced options k j) :
    p.LoopsAdvance options := by
  induction p generalizing k j with
  | done value => trivial
  | fail expected => trivial
  | act a next ih => exact fun b => ih b (hp b)
  | nested g next ih => exact fun t => ih t (hp.2 t)
  | enclosed body next ihb ih => exact ⟨ihb hp.2.1, fun b => ih b (hp.2.2 b)⟩
  | structLiterals allowed body next ihb ih => exact ⟨ihb hp.2.1, fun b => ih b (hp.2.2 b)⟩
  | many round next ihr ih => exact ⟨hp.2.1, ihr hp.2.2.1, fun bs => ih bs (hp.2.2.2 bs)⟩

/-- A step takes a token or leaves the pace as it is. -/
theorem pace_act (options : ParseOptions) (a : Act β) (s : ParseState) (k : Nat) :
    stride * (a.run options s).2.cursor.ahead.length + a.pace (a.run options s).1 k ≤
      stride * s.cursor.ahead.length + k := by
  cases a with
  | take =>
    obtain ⟨n, ⟨passed, _ | ⟨t, ts⟩, beyond, file⟩, depth, allowed⟩ := s
    · exact Nat.le_refl _
    · simp only [Act.run, Cursor.ahead?, List.getElem?_cons_zero, Cursor.advance, Act.pace, stride,
        List.length_cons]
      omega
  | _ => exact Nat.le_refl _

/-- With a budget for so many calls as it paces and for more with each token ahead, a phrase is read
as without one. -/
theorem Paced.metered_eq (hrule : ∀ g, (Grammar.rule g).Paced options g.pace 0)
    (htakes : ∀ g, (Grammar.rule g).Takes options) {budget : Nat} {p : Phrase α} {k j ℓ : Nat}
    {s : ParseState} (hp : p.Paced options k j)
    (hb : stride * s.cursor.ahead.length + k < budget) (hl : options.maxDepth ≤ s.depth + ℓ) :
    p.metered options budget s = some (p.run options (Goal.read options ℓ) s) := by
  induction budget generalizing α p k j ℓ s with
  | zero => omega
  | succ budget ihb =>
    rw [metered]
    -- what a run reaches has no more tokens ahead and as many levels left
    have reached {β : Type} {q : Phrase β} {s t : ParseState} {b : β}
        (hl : options.maxDepth ≤ s.depth + ℓ)
        (h : q.run options (Goal.read options ℓ) s = .ok b t) :
        t.cursor.ahead.length ≤ s.cursor.ahead.length ∧ options.maxDepth ≤ t.depth + ℓ :=
      ⟨((run_passes q options ℓ).of_ok h).length_le,
        ((run_kept q options ℓ).of_ok h).depth_eq ▸ hl⟩
    simp only [stride] at hb ihb
    induction p generalizing k j s with
    | done value => rfl
    | fail expected => rfl
    | act a next ih =>
      have hpace := pace_act options a s k
      have hdepth := (ParseState.Kept.act options a s).depth_eq
      simp only [stride] at hpace
      exact ih (a.run options s).1 (s := (a.run options s).2) (hp _) (by omega) (by omega)
    | nested g next ih =>
      obtain ⟨hg, hnext⟩ := hp
      refine Metered.andThen_eq (r := Goal.read options ℓ g) ?_ fun a t ha => ?_
      · exact Metered.goal_eq hl fun ℓ hl => ihb (hrule g) (by simp; omega) hl
      · have hgoal : (goal g).run options (Goal.read options ℓ) s = .ok a t := by rw [run_goal, ha]
        have hlt := Takes.goal (htakes g) ℓ s a t hgoal
        exact ih a (hnext a) (by simp only [stride]; omega) (reached hl hgoal).2
    | enclosed body next _ ih =>
      obtain ⟨hk, hbody, hnext⟩ := hp
      have hrun : (inScope body).run options (Goal.read options ℓ) =
          Reader.inScope (body.run options (Goal.read options ℓ)) := run_inScope body
      refine Metered.andThen_eq (Metered.between_eq (ihb hbody (by simp; omega) hl)) fun b t hb => ?_
      obtain ⟨hle, hl⟩ := reached hl ((congrFun hrun s).trans hb)
      exact ih b (hnext b) (by omega) hl
    | structLiterals allowed body next _ ih =>
      obtain ⟨hk, hbody, hnext⟩ := hp
      have hrun : (withStructLiterals allowed body).run options (Goal.read options ℓ) =
          Reader.withStructLiterals allowed (body.run options (Goal.read options ℓ)) :=
        run_withStructLiterals body allowed
      refine Metered.andThen_eq (r := Reader.withStructLiterals allowed _)
        (Metered.between_eq (ihb hbody (by simp; omega) hl)) fun b t hb => ?_
      obtain ⟨hle, hl⟩ := reached hl ((congrFun hrun s).trans hb)
      exact ih b (hnext b) (by omega) hl
    | many round next _ ih =>
      obtain ⟨hk, htake, hround, hnext⟩ := hp
      have hrun : (repeated round).run options (Goal.read options ℓ) =
          Reader.many (round.run options (Goal.read options ℓ)) := run_repeated round
      refine Metered.andThen_eq ?_ fun bs t hbs => ?_
      · refine Metered.rounds_eq (ihb hround (by omega) hl) fun a t ha => ?_
        have hlt := htake ℓ s a t ha
        have hagain : (repeated round).Paced options k 0 := ⟨hk, htake, hround, fun _ => Nat.zero_le k⟩
        exact ⟨hlt, hrun ▸ ihb hagain (by omega) (reached hl ha).2⟩
      · obtain ⟨hle, hl⟩ := reached hl ((congrFun hrun s).trans hbs)
        exact ih bs (hnext bs) (by omega) hl

namespace Paced

variable {p q : Phrase α} {c : TokenKind} {k k' j j' i : Nat}

theorem mono (hp : p.Paced options k j) (hk : k ≤ k') (hj : j' ≤ j) : p.Paced options k' j' := by
  induction p generalizing k k' j j' with
  | done value => exact Nat.le_trans hj (Nat.le_trans hp hk)
  | fail expected => trivial
  | act a next ih =>
    refine fun b => ih b (hp b) ?_ hj
    cases a with
    | take => cases b with
      | none => exact hk
      | some t => simp only [Act.pace]; omega
    | _ => exact hk
  | nested g next ih =>
    obtain ⟨hg, hnext⟩ := hp
    exact ⟨by omega, fun t => ih t (hnext t) (by omega) hj⟩
  | enclosed body next ihb ih =>
    obtain ⟨hpos, hbody, hnext⟩ := hp
    exact ⟨by omega, ihb hbody (by omega) (Nat.le_refl 0), fun b => ih b (hnext b) hk hj⟩
  | structLiterals allowed body next ihb ih =>
    obtain ⟨hpos, hbody, hnext⟩ := hp
    exact ⟨by omega, ihb hbody (by omega) (Nat.le_refl 0), fun b => ih b (hnext b) hk hj⟩
  | many round next ihr ih =>
    obtain ⟨hpos, htake, hround, hnext⟩ := hp
    exact ⟨by omega, htake, ihr hround (by omega) (Nat.le_refl 0), fun bs => ih bs (hnext bs) hk hj⟩

theorem pure_of_le {a : α} (h : j ≤ k) : (Pure.pure a : Phrase α).Paced options k j := h

theorem pure {a : α} : (Pure.pure a : Phrase α).Paced options k k := Nat.le_refl k

theorem fail {expected : String} : (Phrase.fail expected : Phrase α).Paced options k j := trivial

theorem bind {f : α → Phrase β} (hp : p.Paced options k j) (hf : ∀ a, (f a).Paced options j i) :
    (p >>= f).Paced options k i := by
  rw [bind_eq_andThen]
  induction p generalizing k with
  | done value => exact (hf value).mono hp (Nat.le_refl i)
  | fail expected => trivial
  | act a next ih => exact fun b => ih b (hp b) hf
  | nested g next ih => exact ⟨hp.1, fun t => ih t (hp.2 t) hf⟩
  | enclosed body next _ ih => exact ⟨hp.1, hp.2.1, fun b => ih b (hp.2.2 b) hf⟩
  | structLiterals allowed body next _ ih => exact ⟨hp.1, hp.2.1, fun b => ih b (hp.2.2 b) hf⟩
  | many round next _ ih => exact ⟨hp.1, hp.2.1, hp.2.2.1, fun bs => ih bs (hp.2.2.2 bs) hf⟩

theorem map {f : α → β} (hp : p.Paced options k j) : (f <$> p).Paced options k j := by
  rw [map_eq_pure_bind]
  exact hp.bind fun _ => pure

theorem ite {b : Prop} [Decidable b] (hp : p.Paced options k j) (hq : q.Paced options k j) :
    (if b then p else q).Paced options k j := by
  split
  · exact hp
  · exact hq

/-- A step that takes no token. -/
theorem look {a : Act α} {f : α → Phrase β} (ha : ∀ b, a.pace b k = k)
    (hf : ∀ b, (f b).Paced options k j) : (Phrase.act a f).Paced options k j :=
  fun b => (ha b).symm ▸ hf b

theorem kind : Phrase.kind.Paced options k k := look (fun _ => rfl) fun _ => Nat.le_refl k

theorem nextKind : Phrase.nextKind.Paced options k k := look (fun _ => rfl) fun _ => Nat.le_refl k

theorem kindAfterNext : Phrase.kindAfterNext.Paced options k k :=
  look (fun _ => rfl) fun _ => Nat.le_refl k

theorem spanFrom {start : Span} : (Phrase.spanFrom start).Paced options k k :=
  look (fun _ => rfl) fun _ => Nat.le_refl k

theorem position : Phrase.position.Paced options k k := look (fun _ => rfl) fun _ => Nat.le_refl k

theorem allowsStructLiterals : Phrase.allowsStructLiterals.Paced options k k :=
  look (fun _ => rfl) fun _ => Nat.le_refl k

theorem isConstant {name : String} : (Phrase.isConstant name).Paced options k k :=
  look (fun _ => rfl) fun _ => Nat.le_refl k

theorem declare {symbol : Symbol} {place : Position} :
    (Phrase.declare symbol place).Paced options k k := look (fun _ => rfl) fun _ => Nat.le_refl k

theorem bindAll {symbols : List Symbol} : (Phrase.bindAll symbols).Paced options k k := by
  induction symbols with
  | nil => exact Nat.le_refl k
  | cons s ss ih => exact look (fun _ => rfl) fun _ => ih

theorem current : Phrase.current.Paced options k k :=
  look (fun _ => rfl) fun b => by
    cases b with
    | none => trivial
    | some t => exact Nat.le_refl k

theorem take : Phrase.take.Paced options k stride := fun b => by
  cases b with
  | none => trivial
  | some t => exact Nat.le_max_right k stride

theorem eat : (Phrase.eat c).Paced options k k := by
  refine kind.bind fun _ => .ite (fun b => ?_) .pure
  cases b with
  | none => trivial
  | some t => exact Nat.le_max_left k stride

theorem expect : (Phrase.expect c).Paced options k stride := kind.bind fun _ => .ite take .fail

theorem expectOneOf {ks : List TokenKind} {expected : String} :
    (Phrase.expectOneOf ks expected).Paced options k stride :=
  look (fun _ => rfl) fun b => by
    cases b with
    | none => trivial
    | some t => exact .ite take .fail

theorem goal {g : Goal} (h : g.pace < k) : (Phrase.goal g).Paced options k stride :=
  ⟨h, fun _ => Nat.le_max_right k stride⟩

theorem inScope (hp : p.Paced options k j) : (Phrase.inScope p).Paced options (k + 1) (k + 1) :=
  ⟨Nat.succ_pos k, hp.mono (Nat.le_refl k) (Nat.zero_le j), fun _ => Nat.le_refl (k + 1)⟩

theorem withStructLiterals {allowed : Bool} (hp : p.Paced options k j) :
    (Phrase.withStructLiterals allowed p).Paced options (k + 1) (k + 1) :=
  ⟨Nat.succ_pos k, hp.mono (Nat.le_refl k) (Nat.zero_le j), fun _ => Nat.le_refl (k + 1)⟩

theorem repeated {round : Phrase (Option α)} (ht : round.TakesOrLeaves options)
    (hr : round.Paced options k j) : (Phrase.repeated round).Paced options (k + 1) (k + 1) :=
  ⟨Nat.succ_pos k, ht, hr.mono (Nat.le_refl k) (Nat.zero_le j), fun _ => Nat.le_refl (k + 1)⟩

theorem after? (hp : p.Paced options k k) : (Phrase.after? c p).Paced options k k :=
  eat.bind fun _ => .ite hp.map .pure

theorem untilKind (ht : p.Takes options) (hp : p.Paced options k j) :
    (Phrase.untilKind c p).Paced options (k + 1) (k + 1) := by
  have hround : (some <$> p).Paced options k 0 := (hp.mono (Nat.le_refl k) (Nat.zero_le j)).map
  exact .repeated (.bind fun _ => .ite .pure_none (.of_takes ht.map))
    (kind.bind fun _ => .ite (.pure_of_le (Nat.zero_le k)) hround)

theorem eachAfter (hp : p.Paced options k j) :
    (Phrase.eachAfter c p).Paced options (k + 1) (k + 1) := by
  have hround : (some <$> p).Paced options k 0 := (hp.mono (Nat.le_refl k) (Nat.zero_le j)).map
  exact .repeated (.ifEat .pure_none)
    (eat.bind fun _ => .ite hround (.pure_of_le (Nat.zero_le k)))

theorem afterFirst (hp : p.Paced options k j) :
    (Phrase.afterFirst c p).Paced options (k + 1) (k + 1) := by
  have hround : (some <$> p).Paced options k 0 := (hp.mono (Nat.le_refl k) (Nat.zero_le j)).map
  have hnone : (Pure.pure none : Phrase (Option α)).Paced options k 0 := .pure_of_le (Nat.zero_le k)
  exact .repeated (.ifEat .pure_none)
    (eat.bind fun _ => .ite (kind.bind fun _ => .ite hnone hround) hnone)

theorem commaList (hp : p.Paced options k j) (h : k + 1 ≤ j) :
    (Phrase.commaList c p).Paced options (k + 1) (k + 1) := by
  have hfirst : p.Paced options (k + 1) (k + 1) := hp.mono (Nat.le_succ k) h
  exact kind.bind fun _ => .ite .pure
    (hfirst.bind fun _ => hp.afterFirst.bind fun _ => .pure)

theorem referenceLayers {layer : Bool → α → Span → α} {spanOf : α → Span}
    (hp : p.Paced options stride stride) :
    (Phrase.referenceLayers layer spanOf p).Paced options k stride :=
  take.bind fun _ => eat.bind fun _ => hp.bind fun _ => .pure

end Paced

end Phrase

end FrontEnd
