import FrontEnd.Proofs.Lockstep
/-!
# How far reading looks ahead

Where a phrase ends it has looked at most at the token after its last one, to see that the phrase does
not go on: it would have been read in the same way whatever stands after that token. A phrase that
ends with a token of its own, as an item does with a semicolon or a brace, has not even looked at the
next one.
-/
namespace FrontEnd

open Phrase

variable {α β : Type} {options : ParseOptions} {fuel d : Nat}

/-- The state with other tokens ahead. -/
def ParseState.withAhead (s : ParseState) (ts : List Token) : ParseState :=
  { s with cursor := { s.cursor with ahead := ts } }

theorem ParseState.ahead?_withAhead {s : ParseState} {v r : List Token} {n : Nat}
    (hs : s.cursor.ahead = v ++ r) (hn : n < v.length) (r' : List Token) :
    (s.withAhead (v ++ r')).cursor.ahead? n = s.cursor.ahead? n := by
  rw [Cursor.ahead?, Cursor.ahead?, hs, List.getElem?_append_left hn]
  exact List.getElem?_append_left hn

/-- Every run that succeeds sees at most `d` of the tokens that are left at its end: it does the same
if others stand after these. -/
def Reader.Sees (d : Nat) (R : Reader α) : Prop :=
  ∀ s a t v r, R s = .ok a t → t.cursor.ahead = v ++ r → d ≤ v.length →
    ∃ w, s.cursor.ahead = w ++ r ∧ v.length ≤ w.length ∧
      ∀ r', R (s.withAhead (w ++ r')) = .ok a (t.withAhead (v ++ r'))

namespace Reader.Sees

variable {R : Reader α} {f : α → Reader β}

theorem mono {e : Nat} (h : R.Sees d) (hd : d ≤ e) : R.Sees e :=
  fun s a t v r hs ht hv => h s a t v r hs ht (Nat.le_trans hd hv)

/-- The second reader sees the tokens that it takes for the first. -/
theorem bind {n : Nat} (hR : R.Sees (d + n)) (hf : ∀ a, (f a).Sees d)
    (hn : ∀ a s b t, f a s = .ok b t → t.cursor.ahead.length + n ≤ s.cursor.ahead.length) :
    (R >>= f).Sees d := by
  intro s b t v r hs ht hv
  obtain ⟨a, u, hu, hfu⟩ := Reader.ok_of_bind hs
  obtain ⟨w, hw, hle, hsame⟩ := hf a u b t v r hfu ht hv
  have hlong : d + n ≤ w.length := by
    have hlength := hn a u b t hfu
    rw [hw, ht, List.length_append, List.length_append] at hlength
    omega
  obtain ⟨w', hw', hle', hsame'⟩ := hR s a u w r hu hw hlong
  refine ⟨w', hw', Nat.le_trans hle hle', fun r' => ?_⟩
  rw [Reader.bind_of_ok (hsame' r'), hsame r']

theorem between {before after : ParseState → ParseState} (hR : R.Sees d)
    (hbefore : ∀ s ts, before (s.withAhead ts) = (before s).withAhead ts)
    (hafter : ∀ s ts, after (s.withAhead ts) = (after s).withAhead ts) :
    (Reader.between before after R).Sees d := by
  have hahead {change : ParseState → ParseState}
      (h : ∀ s ts, change (s.withAhead ts) = (change s).withAhead ts) (s : ParseState) :
      (change s).cursor.ahead = s.cursor.ahead :=
    congrArg (fun s => s.cursor.ahead) (h s s.cursor.ahead)
  intro s a t v r hs ht hv
  obtain ⟨u, hu, rfl⟩ := Reader.ok_of_between hs
  obtain ⟨w, hw, hle, hsame⟩ := hR (before s) a u v r hu ((hahead hafter u).symm.trans ht) hv
  refine ⟨w, (hahead hbefore s).symm.trans hw, hle, fun r' => ?_⟩
  have hrun := hsame r'
  rw [← hbefore] at hrun
  rw [Reader.between_of_ok hrun, hafter]

theorem nested {limit : Nat} (hR : R.Sees d) : (Reader.nested limit R).Sees d := by
  intro s a t v r hs ht hv
  have hdepth := (Reader.ok_of_nested hs).1
  have heq (s : ParseState) (hd : s.depth < limit) :
      Reader.nested limit R s = Reader.between (fun s => { s with depth := s.depth + 1 })
        (fun s => { s with depth := s.depth - 1 }) R s := if_pos hd
  obtain ⟨w, hw, hle, hsame⟩ := hR.between (fun _ _ => rfl) (fun _ _ => rfl) s a t v r
    (heq s hdepth ▸ hs) ht hv
  exact ⟨w, hw, hle, fun r' => (heq (s.withAhead (w ++ r')) hdepth).trans (hsame r')⟩

/-- Loops in which every round that goes on takes a token. -/
theorem many {round : Reader (Option α)} (hr : round.Sees d)
    (htake : ∀ s a t, round s = .ok (some a) t → t.cursor.ahead.length < s.cursor.ahead.length) :
    (Reader.many round).Sees d := by
  intro s as t v r hs ht hv
  induction hn : s.cursor.ahead.length using Nat.strongRecOn generalizing s as with
  | ind n ih =>
    match hround : round s with
    | .error e u =>
      rw [Reader.many, Reader.collect_of_error hround] at hs
      cases hs
    | .ok none u =>
      rw [Reader.many, Reader.collect_of_none hround] at hs
      cases hs
      obtain ⟨w, hw, hle, hsame⟩ := hr s none t v r hround ht hv
      exact ⟨w, hw, hle, fun r' => Reader.collect_of_none (hsame r')⟩
    | .ok (some a) u =>
      have hlt := htake s a u hround
      rw [Reader.many_of_some hround hlt] at hs
      obtain ⟨as', u', hrest, hdone⟩ := Reader.ok_of_bind hs
      cases hdone
      obtain ⟨w, hw, hle, hsame⟩ := ih _ (hn ▸ hlt) u as' hrest rfl
      obtain ⟨w', hw', hle', hsame'⟩ := hr s (some a) u w r hround hw (Nat.le_trans hv hle)
      refine ⟨w', hw', Nat.le_trans hle hle', fun r' => ?_⟩
      rw [Reader.many_of_some (hsame' r') (htake _ a _ (hsame' r')), Reader.bind_of_ok (hsame r')]
      rfl

end Reader.Sees

namespace Phrase

/-- Every run of a phrase that succeeds sees at most `d` of the tokens that are left at its end. -/
def Sees (options : ParseOptions) (fuel d : Nat) (p : Phrase α) : Prop :=
  (p.run options (Goal.read options fuel)).Sees d

/-- Every run of a phrase that succeeds takes at least `n` tokens. -/
def Spends (options : ParseOptions) (n : Nat) (p : Phrase α) : Prop :=
  ∀ fuel s a t, p.run options (Goal.read options fuel) s = .ok a t →
    t.cursor.ahead.length + n ≤ s.cursor.ahead.length

namespace Spends

variable {p : Phrase α} {f : α → Phrase β} {m n : Nat}

theorem bind (hp : p.Spends options m) (hf : ∀ a, (f a).Spends options n) :
    (p >>= f).Spends options (m + n) := by
  intro fuel s b u h
  rw [run_bind] at h
  obtain ⟨a, t, hr, hft⟩ := Reader.ok_of_bind h
  have hfirst := hp fuel s a t hr
  have hsecond := hf a fuel t b u hft
  omega

theorem mono (hp : p.Spends options n) (h : m ≤ n) : p.Spends options m :=
  fun fuel s a t hs => Nat.le_trans (Nat.add_le_add_left h _) (hp fuel s a t hs)

theorem of_yields (hp : ∀ fuel ℓ b x, Yields options fuel ℓ b p x fun _ y =>
    y.rest.length + n ≤ x.rest.length) : p.Spends options n := by
  intro fuel s a t h
  obtain ⟨y, ⟨-, -, rfl⟩, hle⟩ := hp fuel _ _ _ s a t ⟨rfl, rfl, rfl⟩ h
  exact hle

theorem any : p.Spends options 0 := fun _ _ _ _ h => ((run_passes p options _).of_ok h).length_le

theorem expect {k : TokenKind} : (Phrase.expect k).Spends options 1 :=
  fun fuel s a t h => Takes.expect fuel s a t h

theorem expectOneOf {ks : List TokenKind} {expected : String} :
    (Phrase.expectOneOf ks expected).Spends options 1 :=
  .of_yields fun _ _ _ _ => Yields.expectOneOf.mono fun _ _ h => by
    rw [h.2]
    exact Nat.le_refl _

theorem map {f : α → β} (hp : p.Spends options n) : (f <$> p).Spends options n := by
  rw [map_eq_pure_bind]
  exact hp.bind fun _ => .any

theorem inScope (hp : p.Spends options n) : (Phrase.inScope p).Spends options n := by
  intro fuel s a t h
  rw [run_inScope] at h
  obtain ⟨u, hu, rfl⟩ := Reader.ok_of_between h
  have hle := hp fuel _ a u hu
  exact hle

end Spends

namespace Sees

variable {p q : Phrase α} {f : α → Phrase β} {k : TokenKind}

theorem bindSpends {n : Nat} (hp : p.Sees options fuel (d + n)) (hn : ∀ a, (f a).Spends options n)
    (hf : ∀ a, (f a).Sees options fuel d) : (p >>= f).Sees options fuel d := by
  unfold Sees
  rw [run_bind]
  exact Reader.Sees.bind hp hf fun a => hn a fuel

/-- The token that the second phrase takes may have been seen before. -/
theorem bindTakes (hp : p.Sees options fuel (d + 1)) (hn : ∀ a, (f a).Takes options)
    (hf : ∀ a, (f a).Sees options fuel d) : (p >>= f).Sees options fuel d :=
  bindSpends hp (fun a => (hn a : (f a).Spends options 1)) hf

theorem bind (hp : p.Sees options fuel d) (hf : ∀ a, (f a).Sees options fuel d) :
    (p >>= f).Sees options fuel d :=
  bindSpends (n := 0) hp (fun a _ _ _ _ h => ((run_passes (f a) options _).of_ok h).length_le) hf

theorem mono {e : Nat} (hp : p.Sees options fuel d) (hd : d ≤ e) : p.Sees options fuel e :=
  Reader.Sees.mono hp hd

theorem pure {a : α} : (Pure.pure a : Phrase α).Sees options fuel d := by
  rintro s _ _ v r ⟨⟩ ht -
  exact ⟨v, ht, Nat.le_refl _, fun _ => rfl⟩

theorem fail {expected : String} : (Phrase.fail expected : Phrase α).Sees options fuel d := nofun

theorem map {f : α → β} (hp : p.Sees options fuel d) : (f <$> p).Sees options fuel d := by
  rw [map_eq_pure_bind]
  exact hp.bind fun _ => .pure

theorem ite {c : Prop} [Decidable c] (hp : p.Sees options fuel d) (hq : q.Sees options fuel d) :
    (if c then p else q).Sees options fuel d := by
  split
  · exact hp
  · exact hq

/-- A step that changes nothing and looks at no more than `d` tokens. -/
theorem look {act : Act α} (hstate : ∀ s, act.run options s = ((act.run options s).1, s))
    (h : ∀ s v r r', s.cursor.ahead = v ++ r → d ≤ v.length →
      (act.run options (s.withAhead (v ++ r'))).1 = (act.run options s).1) :
    (Phrase.act act .done).Sees options fuel d := by
  have hrun (s : ParseState) : (Phrase.act act .done).run options (Goal.read options fuel) s =
      .ok (act.run options s).1 s := by
    rw [run]
    dsimp only
    rw [hstate]
    rfl
  intro s a t v r hs ht hv
  rw [hrun] at hs
  cases hs
  exact ⟨v, ht, Nat.le_refl _, fun r' => by rw [hrun, h s v r r' ht hv]⟩

theorem lookahead {ahead : Lookahead} :
    (Phrase.act (.kind ahead) .done).Sees options fuel (d + ahead.distance + 1) :=
  look (fun _ => rfl) fun s v r r' hs hv => by
    have hn : ahead.distance < v.length := by omega
    simp only [Act.run, Cursor.kindAhead, ParseState.ahead?_withAhead hs hn]

theorem kind : Phrase.kind.Sees options fuel (d + 1) := lookahead

theorem nextKind : Phrase.nextKind.Sees options fuel (d + 2) := lookahead

theorem kindAfterNext : Phrase.kindAfterNext.Sees options fuel (d + 3) := lookahead

theorem position : Phrase.position.Sees options fuel (d + 1) :=
  look (fun _ => rfl) fun s v r r' hs hv => by
    obtain ⟨u, us, rfl⟩ := List.exists_cons_of_length_pos (Nat.lt_of_lt_of_le d.succ_pos hv)
    obtain ⟨names, ⟨passed, ahead, beyond, file⟩, depth, literals⟩ := s
    obtain rfl : ahead = u :: us ++ r := hs
    rfl

theorem allowsStructLiterals : Phrase.allowsStructLiterals.Sees options fuel d :=
  look (fun _ => rfl) fun _ _ _ _ _ _ => rfl

theorem isConstant {name : String} : (Phrase.isConstant name).Sees options fuel d :=
  look (fun _ => rfl) fun _ _ _ _ _ _ => rfl

theorem spanFrom {start : Span} : (Phrase.spanFrom start).Sees options fuel d :=
  look (fun _ => rfl) fun _ _ _ _ _ _ => rfl

theorem declare {symbol : Symbol} {place : Position} :
    (Phrase.declare symbol place).Sees options fuel d := by
  rintro s _ _ v r ⟨⟩ ht -
  exact ⟨v, ht, Nat.le_refl _, fun _ => rfl⟩

theorem bindAll {symbols : List Symbol} : (Phrase.bindAll symbols).Sees options fuel d := by
  intro s a t v r hs ht hv
  rw [run_bindAll] at hs
  cases hs
  exact ⟨v, ht, Nat.le_refl _, fun r' => run_bindAll symbols⟩

theorem current : Phrase.current.Sees options fuel (d + 1) := by
  have hrun {c : Token} {s : ParseState} (hc : s.cursor.ahead? 0 = some c) :
      Phrase.current.run options (Goal.read options fuel) s = .ok c s := by
    simp [Phrase.current, run, Act.run, hc]
    rfl
  intro s a t v r hs ht hv
  cases hc : s.cursor.ahead? 0 with
  | none => simp [Phrase.current, run, Act.run, hc, Reader.fail] at hs
  | some c =>
    rw [hrun hc] at hs
    cases hs
    refine ⟨v, ht, Nat.le_refl _, fun r' => hrun ?_⟩
    rw [ParseState.ahead?_withAhead ht (Nat.lt_of_lt_of_le d.succ_pos hv), hc]

/-- A phrase that takes the current token if it is one of some. -/
theorem of_taken {p : Phrase Token} {C : Token → Prop}
    (hrun : ∀ s c, s.cursor.ahead? 0 = some c → C c →
      p.run options (Goal.read options fuel) s = .ok c { s with cursor := s.cursor.advance })
    (hok : ∀ s a t, p.run options (Goal.read options fuel) s = .ok a t →
      ∃ c, s.cursor.ahead? 0 = some c ∧ C c) : p.Sees options fuel d := by
  intro s a t v r hs ht hv
  obtain ⟨c, hc, hC⟩ := hok s a t hs
  rw [hrun s c hc hC] at hs
  cases hs
  obtain ⟨names, ⟨passed, ahead, beyond, file⟩, depth, literals⟩ := s
  obtain rfl : ahead = a :: (v ++ r) := by
    cases ahead with
    | nil => cases hc
    | cons u us =>
      have hu : u = a := Option.some.inj hc
      have hus : us = v ++ r := ht
      rw [hu, hus]
  exact ⟨a :: v, rfl, Nat.le_succ _, fun _ => hrun _ a rfl hC⟩

theorem take : Phrase.take.Sees options fuel d := by
  refine of_taken (C := fun _ => True) (fun s c hc _ => run_take hc) fun s a t hs => ?_
  cases hc : s.cursor.ahead? 0 with
  | none => simp [Phrase.take, run, Act.run, hc, Reader.fail] at hs
  | some c => exact ⟨c, rfl, trivial⟩

theorem expect : (Phrase.expect k).Sees options fuel d :=
  bindTakes kind (fun _ => .ite .take .fail) fun _ => .ite take fail

theorem expectOneOf {ks : List TokenKind} {expected : String} :
    (Phrase.expectOneOf ks expected).Sees options fuel d := by
  refine of_taken (C := fun c => c.kind ∈ ks) (fun s c hc hk => run_expectOneOf hc hk)
    fun s a t hs => ?_
  by_cases hk : s.cursor.kind ∈ ks
  · cases hc : s.cursor.ahead? 0 with
    | none => simp [Phrase.expectOneOf, run, Act.run, hc, Reader.fail] at hs
    | some c => exact ⟨c, rfl, Cursor.kind_of_ahead? hc ▸ hk⟩
  · rw [run_expectOneOf_of_not hk] at hs
    cases hs

theorem eat : (Phrase.eat k).Sees options fuel (d + 1) :=
  kind.bind fun _ => .ite (take.bind fun _ => .pure) .pure

theorem after? (hp : p.Sees options fuel (d + 1)) :
    (Phrase.after? k p).Sees options fuel (d + 1) :=
  eat.bind fun _ => .ite hp.map .pure

/-- The kinds of two tokens, of which both are taken. -/
theorem kindAndNext {f : TokenKind → TokenKind → Phrase α} (hn : ∀ k n, (f k n).Spends options 2)
    (hf : ∀ k n, (f k n).Sees options fuel d) :
    (Phrase.kind >>= fun k => Phrase.nextKind >>= f k).Sees options fuel d := by
  have htakes (k : TokenKind) : (Phrase.nextKind >>= f k).Spends options 1 :=
    (Spends.any.bind (hn k)).mono (by decide)
  exact kind.bindSpends htakes fun k => nextKind.bindSpends (hn k) (hf k)

theorem inScope (hp : p.Sees options fuel d) : (Phrase.inScope p).Sees options fuel d := by
  unfold Sees
  rw [run_inScope]
  exact Reader.Sees.between hp (fun _ _ => rfl) fun _ _ => rfl

theorem withStructLiterals {allowed : Bool} (hp : p.Sees options fuel d) :
    (Phrase.withStructLiterals allowed p).Sees options fuel d := by
  unfold Sees
  rw [run_withStructLiterals]
  intro s a t v r hs ht hv
  have hafter (s' : ParseState) (ts : List Token) :
      { s'.withAhead ts with structLiterals := s.structLiterals } =
        { s' with structLiterals := s.structLiterals }.withAhead ts := rfl
  exact Reader.Sees.between hp (fun _ _ => rfl) hafter s a t v r hs ht hv

theorem repeated {round : Phrase (Option α)} (htake : round.TakesOrLeaves options)
    (hr : round.Sees options fuel d) : (Phrase.repeated round).Sees options fuel d := by
  unfold Sees
  rw [run_repeated]
  exact Reader.Sees.many hr (htake fuel)

theorem untilKind (htake : p.Takes options) (hp : p.Sees options fuel (d + 1)) :
    (Phrase.untilKind k p).Sees options fuel (d + 1) :=
  repeated (.bind fun _ => .ite .pure_none (.of_takes htake.map))
    (kind.bind fun _ => .ite .pure hp.map)

theorem eachAfter (hp : p.Sees options fuel (d + 1)) :
    (Phrase.eachAfter k p).Sees options fuel (d + 1) :=
  repeated (.ifEat .pure_none) hp.after?

theorem afterFirst (hp : p.Sees options fuel (d + 1)) :
    (Phrase.afterFirst k p).Sees options fuel (d + 1) :=
  repeated (.ifEat .pure_none) <|
    eat.bind fun _ => .ite (kind.bind fun _ => .ite .pure hp.map) .pure

theorem commaList (hp : p.Sees options fuel (d + 1)) :
    (Phrase.commaList k p).Sees options fuel (d + 1) :=
  kind.bind fun _ => .ite .pure (hp.bind fun _ => hp.afterFirst.bind fun _ => .pure)

theorem referenceLayers {layer : Bool → α → Span → α} {spanOf : α → Span}
    (hp : p.Sees options fuel (d + 1)) :
    (Phrase.referenceLayers layer spanOf p).Sees options fuel (d + 1) :=
  take.bind fun _ => eat.bind fun _ => hp.bind fun _ => .pure

end Sees

end Phrase

namespace Grammar

theorem takes_pathPattern : pathPattern.Takes options :=
  .bind_left (@Operation.takes_phrase _ .path trivial)

theorem takes_identifierPattern : identifierPattern.Takes options :=
  .bind_right fun _ => .bind_right fun _ => .bind_right fun _ => Takes.expect.bind_left

section Goals

variable (G : ∀ g, (goal g).Sees options fuel 1)

theorem sees_path : path.Sees options fuel 1 :=
  Sees.expectOneOf.bind fun _ => Sees.expectOneOf.eachAfter.bind fun _ =>
    Sees.spanFrom.bind fun _ => .pure

include G

theorem sees_expr (above : Tier) : (expr above).Sees options fuel 1 := G _

theorem sees_ty : ty.Sees options fuel 1 := Sees.kind.bind fun _ => .ite (G _) .fail

theorem sees_bracketType : bracketType.Sees options fuel 1 :=
  Sees.take.bind fun _ => (sees_ty G).bind fun _ => Sees.eat.bind fun _ => .ite
    ((sees_expr G _).withStructLiterals.bind fun _ => Sees.expect.bind fun _ =>
      Sees.spanFrom.bind fun _ => .pure)
    (Sees.expect.bind fun _ => Sees.spanFrom.bind fun _ => .pure)

theorem sees_parenType : parenType.Sees options fuel 1 :=
  Sees.take.bind fun _ => Sees.eat.bind fun _ => .ite (Sees.spanFrom.bind fun _ => .pure) <|
    (sees_ty G).bind fun _ => Sees.eat.bind fun _ => .ite .pure <|
      (sees_ty G).afterFirst.bind fun _ => Sees.expect.bind fun _ =>
        Sees.spanFrom.bind fun _ => .pure

theorem sees_tyRule : tyRule.Sees options fuel 1 := Sees.kind.bind fun k => by
  split
  · exact .map sees_path
  · exact .map sees_path
  · exact (sees_ty G).referenceLayers
  · exact (sees_ty G).referenceLayers
  · exact sees_bracketType G
  · exact sees_parenType G
  · exact Sees.take.map
  · exact Sees.take.map
  · exact .fail

theorem sees_pattern : pattern.Sees options fuel 1 := G _

theorem sees_pathPattern : pathPattern.Sees options fuel 1 :=
  .bind sees_path fun _ => Sees.eat.bind fun _ => .ite
    ((sees_pattern G).commaList.bind fun _ => Sees.expect.bind fun _ =>
      Sees.spanFrom.bind fun _ => .pure)
    .pure

theorem sees_identifierPattern : identifierPattern.Sees options fuel 1 :=
  Sees.current.bind fun _ => Sees.eat.bind fun _ => Sees.eat.bind fun _ =>
    Sees.expect.bind fun _ => (sees_pattern G).after?.bind fun _ =>
      Sees.spanFrom.bind fun _ => .pure

/-- The token after the name is seen, but the name is taken. -/
theorem sees_namePattern (name : String) : (namePattern name).Sees options fuel 1 :=
  Sees.nextKind.bindTakes
    (fun _ => by
      split
      · exact takes_pathPattern
      · exact takes_pathPattern
      · exact takes_identifierPattern
      · exact .bind_right fun _ => .ite takes_pathPattern takes_identifierPattern)
    fun _ => by
      split
      · exact sees_pathPattern G
      · exact sees_pathPattern G
      · exact sees_identifierPattern G
      · exact Sees.isConstant.bind fun _ => .ite (sees_pathPattern G) (sees_identifierPattern G)

theorem sees_patternRule : patternRule.Sees options fuel 1 := Sees.current.bind fun t => by
  have hliteral : literalPattern.Sees options fuel 1 := Sees.take.bind fun _ => .pure
  split
  · exact Sees.take.bind fun _ => Sees.expect.bind fun _ => .pure
  · exact hliteral
  · exact hliteral
  · exact hliteral
  · exact hliteral
  · exact hliteral
  · exact Sees.take.map
  · exact (sees_pattern G).referenceLayers
  · exact (sees_pattern G).referenceLayers
  · exact sees_identifierPattern G
  · exact sees_identifierPattern G
  · exact sees_pathPattern G
  · exact sees_pathPattern G
  · exact sees_namePattern G _
  · exact .fail

theorem sees_block : block.Sees options fuel 1 := G _

theorem sees_constBlock : constBlock.Sees options fuel 1 :=
  Sees.expect.bind fun _ => Sees.kind.bind fun _ => .ite
    ((sees_block G).bind fun _ => Sees.spanFrom.bind fun _ => .pure) .fail

omit G in
theorem sees_startsBlockLike : startsBlockLike.Sees options fuel 2 := Sees.kind.bind fun _ => by
  split
  · exact Sees.nextKind.bind fun _ => .pure
  all_goals exact .pure

theorem sees_statementExpr : statementExpr.Sees options fuel 1 :=
  .bindTakes sees_startsBlockLike (fun _ => .ite (.goal (takes_rule _)) (.goal (takes_rule _)))
    fun _ => .ite (G _) (G _)

theorem sees_link : link.Sees options fuel 1 :=
  Sees.current.bind fun _ => Sees.eat.bind fun _ => .ite
    ((sees_pattern G).bind fun _ => Sees.expect.bind fun _ => (sees_expr G _).bind fun _ =>
      Sees.bindAll.bind fun _ => Sees.spanFrom.bind fun _ => .pure)
    ((sees_expr G _).bind fun _ => Sees.spanFrom.bind fun _ => .pure)

theorem sees_guardedBlock : guardedBlock.Sees options fuel 1 := by
  have hcondition : condition.Sees options fuel 1 :=
    .withStructLiterals <| Sees.kind.bind fun _ => .ite
      ((sees_link G).bind fun _ => (sees_link G).eachAfter.bind fun _ => .pure) (sees_expr G _).map
  exact .inScope <| hcondition.bind fun _ => (sees_block G).bind fun _ => .pure

theorem sees_conditional : conditional.Sees options fuel 1 := by
  have hotherwise : otherwise.Sees options fuel 1 :=
    Sees.eat.bind fun _ => .ite
      (Sees.kind.bind fun _ => .ite (Sees.map (G .elseIf)) (sees_block G).map) .pure
  exact Sees.expect.bind fun _ => (sees_guardedBlock G).bind fun _ => hotherwise.bind fun _ =>
    Sees.spanFrom.bind fun _ => .pure

theorem sees_whileLoop : whileLoop.Sees options fuel 1 :=
  Sees.expect.bind fun _ => (sees_guardedBlock G).bind fun _ => Sees.spanFrom.bind fun _ => .pure

theorem sees_loop : loop.Sees options fuel 1 :=
  Sees.expect.bind fun _ => (sees_block G).bind fun _ => Sees.spanFrom.bind fun _ => .pure

theorem sees_armRule : armRule.Sees options fuel 1 :=
  .inScope <| (sees_pattern G).bind fun _ => Sees.bindAll.bind fun _ =>
    (sees_expr G _).after?.bind fun _ => Sees.expect.bind fun _ =>
      (sees_statementExpr G).bind fun _ => .pure

theorem sees_matching : matching.Sees options fuel 1 := by
  have harm : armAndComma.Sees options fuel 1 :=
    Sees.bind (G .arm) fun _ => Sees.eat.bind fun _ => .ite .pure <|
      Sees.kind.bind fun _ => .ite .pure .fail
  have htake : armAndComma.Takes options := .bind_left (.goal (takes_rule .arm))
  exact Sees.expect.bind fun _ => (sees_expr G _).withStructLiterals.bind fun _ =>
    Sees.expect.bind fun _ => (harm.untilKind htake).withStructLiterals.bind fun _ =>
      Sees.expect.bind fun _ => Sees.spanFrom.bind fun _ => .pure

theorem sees_fieldValue : fieldValue.Sees options fuel 1 :=
  Sees.expect.bind fun _ => (sees_expr G _).after?.bind fun value => by
    cases value <;> exact .pure

theorem sees_structLiteral (p : Path) : (structLiteral p).Sees options fuel 1 :=
  Sees.expect.bind fun _ =>
    ((sees_fieldValue G).commaList.bind fun _ => Sees.expect.bind fun _ => .pure).withStructLiterals.bind
      fun _ => Sees.spanFrom.bind fun _ => .pure

theorem sees_pathExpr : pathExpr.Sees options fuel 1 :=
  .bind sees_path fun _ => Sees.kind.bind fun _ => Sees.allowsStructLiterals.bind fun _ =>
    .ite (sees_structLiteral G _) .pure

theorem sees_grouped : grouped.Sees options fuel 1 :=
  Sees.take.bind fun _ => (sees_expr G _).withStructLiterals.bind fun _ =>
    Sees.expect.bind fun _ => Sees.spanFrom.bind fun _ => .pure

theorem sees_arrayRest (opening : Token) (first : Expr) :
    (arrayRest opening first).Sees options fuel 1 :=
  Sees.eat.bind fun _ => .ite
    ((sees_expr G _).bind fun _ => Sees.expect.bind fun _ => Sees.spanFrom.bind fun _ => .pure)
    ((sees_expr G _).afterFirst.bind fun _ => Sees.expect.bind fun _ =>
      Sees.spanFrom.bind fun _ => .pure)

theorem sees_array : array.Sees options fuel 1 :=
  Sees.take.bind fun _ => .withStructLiterals <| Sees.eat.bind fun _ => .ite
    (Sees.spanFrom.bind fun _ => .pure) ((sees_expr G _).bind fun _ => sees_arrayRest G _ _)

theorem sees_jumpValue : jumpValue.Sees options fuel 1 :=
  Sees.bind (Sees.kind.bind fun _ => .pure) fun _ => .ite (sees_expr G _).map .pure

theorem sees_term : term.Sees options fuel 1 := Sees.kind.bind fun k => by
  have hliteral : (Expr.literal <$> Phrase.take).Sees options fuel 1 := Sees.take.map
  have hunary : unary.Sees options fuel 1 :=
    Sees.take.bind fun _ => (sees_expr G _).bind fun _ => .pure
  split
  · exact hliteral
  · exact hliteral
  · exact hliteral
  · exact hliteral
  · exact hliteral
  · exact sees_pathExpr G
  · exact sees_pathExpr G
  · exact sees_pathExpr G
  · exact hunary
  · exact hunary
  · exact Sees.take.bind fun _ => (sees_expr G _).bind fun _ => .pure
  · exact (sees_expr G _).referenceLayers
  · exact (sees_expr G _).referenceLayers
  · exact sees_grouped G
  · exact sees_array G
  · exact Sees.take.map
  · exact Sees.take.bind fun _ => (sees_jumpValue G).bind fun _ => Sees.spanFrom.bind fun _ => .pure
  · exact Sees.take.map
  · exact Sees.take.bind fun _ => (sees_jumpValue G).bind fun _ => Sees.spanFrom.bind fun _ => .pure
  · exact (sees_block G).map
  · exact sees_constBlock G
  · exact (sees_conditional G).map
  · exact sees_matching G
  · exact sees_loop G
  · exact sees_whileLoop G
  · exact .fail

theorem sees_arguments : arguments.Sees options fuel 1 :=
  .withStructLiterals <| (sees_expr G _).commaList.bind fun _ => Sees.expect.bind fun _ => .pure

theorem sees_memberSuffix : memberSuffix.Sees options fuel 1 :=
  Sees.take.bind fun _ => Sees.expectOneOf.bind fun _ => .ite
    (Sees.eat.bind fun _ => .ite ((sees_arguments G).bind fun _ => .pure) .pure) .pure

theorem sees_suffix (operator : TokenKind) (tier : Tier) :
    (suffix operator tier).Sees options fuel 1 := by
  have hbinary (tier : Tier) : (binarySuffix tier).Sees options fuel 1 :=
    Sees.take.bind fun _ => (sees_expr G _).bind fun _ => .pure
  unfold suffix
  split
  · exact Sees.take.bind fun _ => (sees_expr G _).bind fun _ => .pure
  · exact Sees.take.bind fun _ => (sees_ty G).map
  · exact .ite (Sees.take.bind fun _ => (sees_arguments G).bind fun _ => .pure)
      (Sees.take.bind fun _ => (sees_expr G _).withStructLiterals.bind fun _ =>
        Sees.expect.bind fun _ => .pure)
  · exact sees_memberSuffix G
  · exact hbinary _

theorem sees_operators (above : Tier) (left : Expr) : (operators above left).Sees options fuel 1 := by
  refine Sees.bind (.repeated (takesOrLeaves_suffix? above) <| Sees.kind.bind fun _ => ?_)
    fun _ => .pure
  split
  · exact .ite (sees_suffix G _ _).map .pure
  · exact .pure

theorem sees_exprRule (above : Tier) : (exprRule above).Sees options fuel 1 :=
  (sees_term G).bind fun _ => sees_operators G _ _

theorem sees_blockLikeRule : blockLikeRule.Sees options fuel 1 :=
  (sees_term G).bind fun _ => Sees.kind.bind fun _ => .ite (sees_operators G _ _) .pure

theorem sees_typedName : typedName.Sees options fuel 1 :=
  Sees.expect.bind fun _ => Sees.expect.bind fun _ => (sees_ty G).bind fun _ =>
    Sees.spanFrom.bind fun _ => .pure

theorem sees_struct : struct.Sees options fuel 0 :=
  Sees.expect.bind fun _ => Sees.expect.bind fun _ => Sees.kind.bindTakes
    (fun _ => by
      split
      · exact Takes.take.bind_left
      · exact Takes.take.bind_left
      · exact .fail)
    fun _ => by
      split
      · exact Sees.take.bind fun _ => Sees.spanFrom.bind fun _ => .pure
      · exact Sees.take.bind fun _ => (sees_typedName G).commaList.bindTakes
          (fun _ => Takes.expect.bind_left)
          fun _ => Sees.expect.bind fun _ => Sees.spanFrom.bind fun _ => .pure
      · exact .fail

omit G in
theorem sees_enum : enum.Sees options fuel 0 :=
  Sees.expect.bind fun _ => Sees.expect.bind fun _ => Sees.expect.bind fun _ =>
    Sees.expect.commaList.bindTakes (fun _ => Takes.expect.bind_left)
      fun _ => Sees.expect.bind fun _ => Sees.spanFrom.bind fun _ => .pure

theorem sees_constant (inTrait : Bool) : (constant inTrait).Sees options fuel 0 := by
  have hvalue : (constantValue inTrait).Sees options fuel 1 :=
    Sees.eat.bind fun _ => .ite (sees_expr G _).map (.ite .pure .fail)
  exact Sees.expect.bind fun _ => Sees.expectOneOf.bind fun _ => Sees.expect.bind fun _ =>
    Sees.bindTakes (sees_ty G) (fun _ => .bind_right fun _ => Takes.expect.bind_left)
      fun _ => hvalue.bindTakes (fun _ => Takes.expect.bind_left)
        fun _ => Sees.expect.bind fun _ => Sees.spanFrom.bind fun _ => .pure

/-- The tokens that the body of a function takes at the least: a semicolon or two braces. -/
def bodyLength (allowSignature : Bool) : Nat := if allowSignature then 1 else 2

omit G in
theorem bodyLength_pos (allowSignature : Bool) : 1 ≤ bodyLength allowSignature := by
  cases allowSignature <;> decide

omit G in
theorem spends_functionBody (allowSignature : Bool) :
    (functionBody allowSignature).Spends options (bodyLength allowSignature) :=
  .of_yields fun fuel _ _ _ =>
    (sound_functionBody (Goal.sound options fuel) allowSignature).mono fun _ y h => by
      cases h with
      | signature => exact Nat.le_refl _
      | body hb =>
        cases hb with
        | block _ hrest =>
          have hlt := hrest.length_lt trivial
          simp only [bodyLength, List.length_cons] at hlt ⊢
          split <;> omega

omit G in
/-- Up to three tokens are seen to tell whether there is a `self` parameter. -/
theorem sees_startsSelfParam : startsSelfParam.Sees options fuel 3 :=
  Sees.kind.bind fun _ => Sees.nextKind.bind fun _ => Sees.kindAfterNext.bind fun _ => by
    split <;> exact .pure

theorem sees_selfParam? : selfParam?.Sees options fuel 3 := by
  have hself : selfParam.Sees options fuel 3 :=
    Sees.current.bind fun _ => Sees.eat.bind fun _ => Sees.eat.bind fun _ => Sees.expect.bind fun _ =>
      .ite (Sees.declare.bind fun _ => Sees.spanFrom.bind fun _ => .pure)
        (Sees.bind (.after? ((sees_ty G).mono (by decide))) fun _ =>
          Sees.declare.bind fun _ => Sees.spanFrom.bind fun _ => .pure)
  exact .bind sees_startsSelfParam fun _ => .ite
    (hself.bind fun _ => Sees.kind.bind fun _ => .ite .pure (Sees.expect.bind fun _ => .pure)) .pure

theorem sees_param : param.Sees options fuel 1 :=
  Sees.expect.bind fun _ => Sees.expect.bind fun _ => (sees_ty G).bind fun _ =>
    Sees.declare.bind fun _ => Sees.spanFrom.bind fun _ => .pure

omit G in
/-- The body of a function is seen as far as a block is. -/
theorem sees_functionBody {d : Nat} {allowSignature : Bool} (hblock : block.Sees options fuel d) :
    (functionBody allowSignature).Sees options fuel d :=
  Sees.kind.bindTakes
    (fun _ => .ite (.ite Takes.take.bind_left .fail) (.map (.goal (takes_rule .block))))
    fun _ => .ite (.ite (Sees.take.bind fun _ => .pure) .fail) hblock.map

/-- What is seen to tell whether there is a `self` parameter stands in the function still. -/
theorem sees_function {d : Nat} {allowSignature : Bool} (hblock : block.Sees options fuel d)
    (hd : 3 ≤ d + (1 + bodyLength allowSignature)) :
    (function allowSignature).Sees options fuel d := by
  have hbody : (functionBody allowSignature).Spends options _ := spends_functionBody allowSignature
  have htakes : (functionBody allowSignature).Takes options := hbody.mono (bodyLength_pos _)
  refine Sees.current.bindTakes (fun _ => .bind_right fun _ => Takes.expect.bind_left) fun _ =>
    Sees.eat.bindTakes (fun _ => Takes.expect.bind_left) fun _ =>
      Sees.expect.bind fun _ => Sees.expect.bind fun _ => .inScope <| Sees.expect.bind fun _ =>
        ((sees_selfParam? G).mono hd).bindSpends (fun _ => ?_) fun _ => ?_
  · refine Spends.mono (Spends.any.bind fun _ => Spends.expect.bind fun _ => Spends.any.bind fun _ =>
      hbody.bind fun _ => .any) ?_
    omega
  · exact Sees.bindTakes (.commaList ((sees_param G).mono (Nat.le_add_left 1 d)))
      (fun _ => Takes.expect.bind_left) fun _ => Sees.expect.bind fun _ =>
        Sees.bindTakes (.after? ((sees_ty G).mono (Nat.le_add_left 1 d))) (fun _ => htakes.bind_left)
          fun _ => (sees_functionBody hblock).bind fun _ => Sees.spanFrom.bind fun _ => .pure

theorem sees_declaredMember (inTrait : Bool) : (declaredMember inTrait).Sees options fuel 1 := by
  have hfunction : (function inTrait).Sees options fuel 1 :=
    sees_function G (sees_block G) (by cases inTrait <;> decide)
  have hmember : (member inTrait).Sees options fuel 1 := by
    refine Sees.kind.bind fun _ => Sees.nextKind.bindTakes (fun _ => ?_) fun _ => ?_
    · split
      · exact .map (@Operation.takes_phrase _ (.function inTrait) trivial)
      · exact .map (@Operation.takes_phrase _ (.function inTrait) trivial)
      · exact .map (@Operation.takes_phrase _ (.constant inTrait) trivial)
      · exact .fail
    · split
      · exact hfunction.map
      · exact hfunction.map
      · exact .map ((sees_constant G inTrait).mono (Nat.zero_le 1))
      · exact .fail
  exact Sees.position.bind fun _ => hmember.bind fun _ => Sees.declare.bind fun _ => .pure

theorem sees_members (inTrait : Bool) : (members inTrait).Sees options fuel 0 :=
  .inScope <| Sees.expect.bind fun _ =>
    (Sees.untilKind (takes_declaredMember inTrait) (sees_declaredMember G inTrait)).bindTakes
      (fun _ => Takes.expect.bind_left) fun _ => Sees.expect.bind fun _ => .pure

theorem sees_trait : trait.Sees options fuel 0 :=
  Sees.expect.bind fun _ => Sees.expect.bind fun _ => (sees_members G true).bind fun _ =>
    Sees.spanFrom.bind fun _ => .pure

theorem sees_impl : impl.Sees options fuel 0 := by
  have htrait : implTrait?.Sees options fuel 2 := Sees.kind.bind fun _ => Sees.nextKind.bind fun _ => by
    split
    · exact Sees.take.bind fun _ => Sees.take.bind fun _ => .pure
    · exact .pure
  have hty : ty.Spends options 1 := @Operation.takes_phrase _ .ty trivial
  have hmembers : (members false).Takes options := Spends.inScope (Spends.expect.bind fun _ => .any)
  exact Sees.expect.bind fun _ =>
    htrait.bindSpends (n := 2)
      (fun _ => hty.bind fun _ => Spends.bind (m := 1) (n := 0) hmembers fun _ => .any)
      fun _ => Sees.bindTakes (sees_ty G) (fun _ => hmembers.bind_left)
        fun _ => (sees_members G false).bind fun _ => Sees.spanFrom.bind fun _ => .pure

variable (B : block.Sees options fuel 0)
include B

/-- An item ends with a token of its own and sees nothing after it. -/
theorem sees_item : item.Sees options fuel 0 := by
  have hfunction : (function false).Sees options fuel 0 := sees_function G B (by decide)
  have hspends {allowSignature : Bool} : (function allowSignature).Spends options 2 :=
    Spends.any.bind fun _ => Spends.any.bind fun _ => Spends.expect.bind fun _ =>
      Spends.expect.bind fun _ => .any
  have hty : ty.Spends options 1 := @Operation.takes_phrase _ .ty trivial
  refine Sees.kindAndNext (fun _ _ => ?_) fun _ _ => ?_
  · split
    · exact hspends.map
    · exact hspends.map
    · exact Spends.map <| Spends.expect.bind fun _ => Spends.expectOneOf.bind fun _ => .any
    · exact Spends.expect.bind fun _ => Spends.expect.bind fun _ => .any
    · exact Spends.expect.bind fun _ => Spends.expect.bind fun _ => .any
    · exact Spends.expect.bind fun _ => Spends.expect.bind fun _ => .any
    · exact Spends.expect.bind fun _ => Spends.any.bind fun _ => hty.bind fun _ => .any
    · exact nofun
  · split
    · exact hfunction.map
    · exact hfunction.map
    · exact (sees_constant G false).map
    · exact sees_struct G
    · exact sees_enum
    · exact sees_trait G
    · exact sees_impl G
    · exact .fail

theorem sees_declaredItem : declaredItem.Sees options fuel 0 :=
  (sees_item G B).bind fun _ => Sees.declare.bind fun _ => .pure

theorem sees_statement : statement.Sees options fuel 1 := Sees.kind.bind fun _ => by
  have hitem : declaredItem.Sees options fuel 1 := (sees_declaredItem G B).mono (Nat.zero_le 1)
  have hlet : letBinding.Sees options fuel 1 :=
    Sees.expect.bind fun _ => (sees_pattern G).bind fun _ => (sees_ty G).after?.bind fun _ =>
      (sees_expr G _).after?.bind fun _ => Sees.expect.bind fun _ => Sees.bindAll.bind fun _ =>
        Sees.spanFrom.bind fun _ => .pure
  split
  · exact hlet
  · exact Sees.expect.bind fun _ => .pure
  · exact hitem.map
  · exact hitem.map
  · exact hitem.map
  · exact hitem.map
  · exact hitem.map
  · exact hitem.map
  · exact .fail

theorem sees_elementRule : elementRule.Sees options fuel 1 := by
  have hstarts : startsStatement.Sees options fuel 2 := Sees.kind.bind fun _ => by
    split
    · exact Sees.nextKind.bind fun _ => .pure
    all_goals exact .pure
  have helement : exprElement.Sees options fuel 1 :=
    (sees_statementExpr G).bind fun _ => Sees.eat.bind fun _ => .ite
      (Sees.spanFrom.bind fun _ => .pure)
      (Sees.kind.bind fun _ => .ite .pure (.ite .pure .fail))
  exact hstarts.bindTakes
    (fun _ => .ite (.map (@Operation.takes_phrase _ .statement trivial))
      (.bind_left (@Operation.takes_phrase _ .statementExpr trivial)))
    fun _ => .ite (sees_statement G B).map helement

omit B in
theorem sees_blockRule : blockRule.Sees options fuel 0 :=
  .inScope <| .withStructLiterals <| Sees.expect.bind fun _ =>
    (Sees.untilKind (.goal (takes_rule .element)) (G .element)).bindTakes
      (fun _ => Takes.expect.bind_left) fun _ => Sees.expect.bind fun _ =>
        Sees.spanFrom.bind fun _ => .pure

theorem sees_rule (g : Goal) : (rule g).Sees options fuel 1 := by
  cases g with
  | expr above => exact sees_exprRule G above
  | blockLike => exact sees_blockLikeRule G
  | block => exact (sees_blockRule G).mono (Nat.zero_le 1)
  | element => exact sees_elementRule G B
  | elseIf => exact sees_conditional G
  | arm => exact sees_armRule G
  | ty => exact sees_tyRule G
  | pattern => exact sees_patternRule G

end Goals

end Grammar

/-- What is seen after a goal: at most one token, and none after a block. -/
theorem Goal.sees (options : ParseOptions) (fuel : Nat) :
    (∀ g, (goal g).Sees options fuel 1) ∧ Grammar.block.Sees options fuel 0 := by
  have hgoal {fuel d : Nat} {g : Goal} (hrule : (Grammar.rule g).Sees options fuel d) :
      (goal g).Sees options (fuel + 1) d := by
    unfold Phrase.Sees
    rw [run_goal, Goal.read]
    exact Reader.Sees.nested hrule
  have hzero {d : Nat} {g : Goal} : (goal g).Sees options 0 d := by
    unfold Phrase.Sees
    rw [run_goal]
    intro s a t v r h
    cases h
  induction fuel with
  | zero => exact ⟨fun g => hzero, hzero⟩
  | succ fuel ih =>
    obtain ⟨G, B⟩ := ih
    exact ⟨fun g => hgoal (Grammar.sees_rule G B g), hgoal (g := .block) (Grammar.sees_blockRule G)⟩

namespace Grammar

variable {s t : ParseState} {i : Item}

/-- What sees nothing of the tokens that it leaves would have been read whatever stands there. -/
theorem read_withAhead {p : Phrase α} {a : α} (hp : p.Sees options options.maxDepth 0)
    (h : p.read options s = .ok a t) :
    ∃ w, s.cursor.ahead = w ++ t.cursor.ahead ∧
      ∀ rest, p.read options (s.withAhead (w ++ rest)) = .ok a (t.withAhead rest) := by
  obtain ⟨w, hw, -, hsame⟩ := hp s a t [] _ h rfl (Nat.zero_le _)
  exact ⟨w, hw, hsame⟩

/-- An item that was read would have been read whatever stands after its last token. -/
theorem read_item_withAhead (h : item.read options s = .ok i t) :
    ∃ w, s.cursor.ahead = w ++ t.cursor.ahead ∧
      ∀ rest, item.read options (s.withAhead (w ++ rest)) = .ok i (t.withAhead rest) :=
  have ⟨G, B⟩ := Goal.sees options options.maxDepth
  read_withAhead (sees_item G B) h

theorem read_declaredItem_withAhead (h : declaredItem.read options s = .ok i t) :
    ∃ w, s.cursor.ahead = w ++ t.cursor.ahead ∧
      ∀ rest, declaredItem.read options (s.withAhead (w ++ rest)) = .ok i (t.withAhead rest) :=
  have ⟨G, B⟩ := Goal.sees options options.maxDepth
  read_withAhead (sees_declaredItem G B) h

end Grammar

end FrontEnd
