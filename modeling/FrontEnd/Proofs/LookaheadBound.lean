import FrontEnd.Proofs.Foresight
/-!
# No decision depends on a token further on

A phrase asks for the kinds of the current token and of the two after it, and for nothing beyond. As
the cursor only moves forward, a run sees none of the tokens that stand more than two places past
the point where it stops, whether it has succeeded there or failed: with other tokens in their place
it does the same.
-/
namespace FrontEnd

variable {α β : Type} {options : ParseOptions}

def sight : Nat := 3

/-- Tokens that cannot be told apart from the place before them. -/
def LookAlike (ts ts' : List Token) : Prop := ts.take sight = ts'.take sight

namespace LookAlike

variable {ts ts' : List Token}

theorem getElem?_eq (h : LookAlike ts ts') {n : Nat} (hn : n < sight) : ts[n]? = ts'[n]? := by
  rw [← List.getElem?_take_of_lt hn, ← List.getElem?_take_of_lt (l := ts') hn, h]

/-- From further back they can be told apart even less. -/
theorem append (h : LookAlike ts ts') (w : List Token) : LookAlike (w ++ ts) (w ++ ts') := by
  have hcut (us : List Token) : us.take (sight - w.length) =
      (us.take sight).take (sight - w.length) := by
    rw [List.take_take, Nat.min_eq_left (Nat.sub_le _ _)]
  unfold LookAlike
  rw [List.take_append, List.take_append, hcut ts, hcut ts', h]

end LookAlike

namespace ParseState

variable {s : ParseState} {ts : List Token} (h : LookAlike s.cursor.ahead ts)
include h

theorem kindAhead_withAhead {n : Nat} (hn : n < sight) :
    (s.withAhead ts).cursor.kindAhead n = s.cursor.kindAhead n := by
  unfold Cursor.kindAhead Cursor.ahead?
  rw [h.getElem?_eq hn]
  rfl

theorem current_withAhead : (s.withAhead ts).cursor.ahead? 0 = s.cursor.ahead? 0 := by
  unfold Cursor.ahead?
  rw [h.getElem?_eq (by decide)]
  rfl

/-- The current token, or its absence, tells the place and what is wrong with it. -/
theorem position_withAhead : (s.withAhead ts).cursor.position = s.cursor.position ∧
    ∀ expected, (s.withAhead ts).cursor.unexpected expected = s.cursor.unexpected expected := by
  obtain ⟨names, ⟨passed, ahead, beyond, file⟩, depth, literals⟩ := s
  have hcurrent : ahead[0]? = ts[0]? := h.getElem?_eq (by decide)
  match ahead, ts with
  | [], [] => exact ⟨rfl, fun _ => rfl⟩
  | t :: _, t' :: _ =>
    obtain rfl : t = t' := by simpa using hcurrent
    exact ⟨rfl, fun _ => rfl⟩
  | [], _ :: _ | _ :: _, [] => simp at hcurrent

end ParseState

namespace Reader

def withAhead (ts : List Token) :
    EStateM.Result SyntaxError ParseState α → EStateM.Result SyntaxError ParseState α
  | .ok a t => .ok a (t.withAhead ts)
  | .error e t => .error e (t.withAhead ts)

/-- The run from a state takes some of the tokens ahead, and if others stand after these that look
alike from the place where it stops, then it does the same. -/
def LooksNearFrom (s : ParseState) (r : Reader α) : Prop :=
  ∃ w, s.cursor.ahead = w ++ (r.after s).cursor.ahead ∧
    ∀ ts, LookAlike (r.after s).cursor.ahead ts → r (s.withAhead (w ++ ts)) = withAhead ts (r s)

def LooksNear (r : Reader α) : Prop := ∀ s, r.LooksNearFrom s

variable {r : Reader α} {f : α → Reader β} {s t : ParseState}

/-- A run that takes no token and depends only on what can be seen. -/
theorem LooksNearFrom.of_same (hahead : (r.after s).cursor.ahead = s.cursor.ahead)
    (hsame : ∀ ts, LookAlike s.cursor.ahead ts → r (s.withAhead ts) = withAhead ts (r s)) :
    r.LooksNearFrom s := by
  refine ⟨[], ?_, ?_⟩
  · rw [hahead]
    rfl
  · rw [hahead]
    exact hsame

/-- Only the runs from the state with some tokens ahead count. -/
theorem LooksNearFrom.congr {r' : Reader α} (hr : r.LooksNearFrom s)
    (h : ∀ ts, r' (s.withAhead ts) = r (s.withAhead ts)) : r'.LooksNearFrom s := by
  obtain ⟨w, hw, hsame⟩ := hr
  have hhere : r' s = r s := h s.cursor.ahead
  refine ⟨w, ?_, ?_⟩
  · rw [after_congr hhere]
    exact hw
  · intro ts hts
    rw [after_congr hhere] at hts
    rw [h, hhere]
    exact hsame ts hts

theorem LooksNear.pure (a : α) : (Pure.pure a : Reader α).LooksNear := by
  intro s
  apply LooksNearFrom.of_same
  · rfl
  · intro ts hts
    rfl

theorem LooksNear.fail (expected : String) : (fail expected : Reader α).LooksNear := by
  intro s
  apply LooksNearFrom.of_same
  · rfl
  · intro ts hts
    exact congrArg (EStateM.Result.error · _) ((ParseState.position_withAhead hts).2 expected)

theorem LooksNear.tooDeep (limit : Nat) : (tooDeep limit : Reader α).LooksNear := by
  intro s
  apply LooksNearFrom.of_same
  · rfl
  · intro ts hts
    unfold Reader.tooDeep
    rw [(ParseState.position_withAhead hts).1]
    rfl

/-- What the first run sees lies in what the second one takes and sees. -/
theorem LooksNearFrom.bind (hr : r.LooksNearFrom s)
    (hf : ∀ a t, r s = .ok a t → (f a).LooksNearFrom t) : (r >>= f).LooksNearFrom s := by
  obtain ⟨w, hw, hsame⟩ := hr
  cases h : r s with
  | error e t =>
    have hend : (r >>= f).after s = r.after s := by
      rw [after_of_error h, after_of_error (bind_of_error h)]
    refine ⟨w, ?_, ?_⟩
    · rw [hend]
      exact hw
    · intro ts hts
      rw [hend] at hts
      have hrun := hsame ts hts
      rw [h] at hrun
      rw [bind_of_error h, bind_of_error hrun]
      rfl
  | ok a t =>
    obtain ⟨w', hw', hsame'⟩ := hf a t h
    have hend : (r >>= f).after s = (f a).after t := after_congr (bind_of_ok h)
    rw [after_of_ok h] at hw hsame
    refine ⟨w ++ w', ?_, ?_⟩
    · rw [hend, List.append_assoc, ← hw']
      exact hw
    · intro ts hts
      rw [hend] at hts
      have hrun := hsame (w' ++ ts) (hw' ▸ hts.append w')
      rw [h] at hrun
      rw [List.append_assoc, bind_of_ok hrun, bind_of_ok h]
      exact hsame' ts hts

theorem LooksNear.bind (hr : r.LooksNear) (hf : ∀ a, (f a).LooksNear) : (r >>= f).LooksNear := by
  intro s
  apply (hr s).bind
  intro a t h
  exact hf a t

/-- Changes of the state that leave the cursor alone make no difference. -/
theorem LooksNearFrom.between {before after : ParseState → ParseState}
    (hr : r.LooksNearFrom (before s))
    (hbefore : ∀ ts, before (s.withAhead ts) = (before s).withAhead ts)
    (hafter : ∀ t ts, after (t.withAhead ts) = (after t).withAhead ts) :
    (between before after r).LooksNearFrom s := by
  have hahead (t : ParseState) : (after t).cursor.ahead = t.cursor.ahead :=
    congrArg (fun t => t.cursor.ahead) (hafter t t.cursor.ahead)
  have hstart : (before s).cursor.ahead = s.cursor.ahead :=
    congrArg (fun t => t.cursor.ahead) (hbefore s.cursor.ahead)
  obtain ⟨w, hw, hsame⟩ := hr
  rw [hstart] at hw
  refine ⟨w, ?_, ?_⟩
  · rw [after_between, hahead]
    exact hw
  · intro ts hts
    rw [after_between, hahead] at hts
    have hrun := hsame ts hts
    rw [← hbefore] at hrun
    cases h : r (before s) with
    | ok a t =>
      rw [h] at hrun
      rw [between_of_ok hrun, between_of_ok h, hafter]
      rfl
    | error e t =>
      rw [h] at hrun
      rw [between_of_error hrun, between_of_error h, hafter]
      rfl

theorem LooksNear.inScope (hr : r.LooksNear) : (inScope r).LooksNear := by
  intro s
  apply (hr _).between
  · intro ts
    rfl
  · intro t ts
    rfl

theorem LooksNear.withStructLiterals (hr : r.LooksNear) (allowed : Bool) :
    (withStructLiterals allowed r).LooksNear := by
  intro s
  apply LooksNearFrom.between (hr _)
  · intro ts
    rfl
  · intro t ts
    rfl

theorem LooksNear.nested (hr : r.LooksNear) (limit : Nat) : (nested limit r).LooksNear := by
  intro s
  by_cases hs : s.depth < limit
  · have hbetween : (Reader.between (fun s => { s with depth := s.depth + 1 })
        (fun s => { s with depth := s.depth - 1 }) r).LooksNearFrom s := by
      apply (hr _).between
      · intro ts
        rfl
      · intro t ts
        rfl
    apply hbetween.congr
    intro ts
    exact if_pos hs
  · apply (LooksNear.tooDeep limit s).congr
    intro ts
    exact if_neg hs

/-- A loop looks near if, after the first round, it does: the induction is on the number of tokens
ahead, since a round that goes on takes one of them. -/
theorem LooksNear.many {round : Reader (Option α)} (hr : round.LooksNear) :
    (many round).LooksNear := by
  intro s
  induction hn : s.cursor.ahead.length using Nat.strongRecOn generalizing s with
  | ind n ih =>
    obtain ⟨w, hw, hsame⟩ := hr s
    match h : round s with
    | .error e t =>
      have hmany : Reader.many round s = .error e t := collect_of_error h
      rw [after_of_error h] at hw hsame
      refine ⟨w, ?_, ?_⟩
      · rw [after_of_error hmany]
        exact hw
      · intro ts hts
        rw [after_of_error hmany] at hts
        have hrun := hsame ts hts
        rw [h] at hrun
        rw [hmany]
        exact collect_of_error hrun
    | .ok none t =>
      have hmany : Reader.many round s = .ok [] t := collect_of_none h
      rw [after_of_ok h] at hw hsame
      refine ⟨w, ?_, ?_⟩
      · rw [after_of_ok hmany]
        exact hw
      · intro ts hts
        rw [after_of_ok hmany] at hts
        have hrun := hsame ts hts
        rw [h] at hrun
        rw [hmany]
        exact collect_of_none hrun
    | .ok (some a) t =>
      rw [after_of_ok h] at hw hsame
      by_cases hlt : t.cursor.ahead.length < s.cursor.ahead.length
      · have hmany : Reader.many round s = _ := many_of_some h hlt
        have hrest : (do return a :: (← Reader.many round) : Reader (List α)).LooksNearFrom t := by
          apply (ih _ (hn ▸ hlt) t rfl).bind
          intro as u hu
          exact LooksNear.pure _ u
        obtain ⟨w', hw', hsame'⟩ := hrest
        have hlong (ts : List Token) : (w' ++ ts).length < (w ++ (w' ++ ts)).length := by
          rw [hw, List.length_append] at hlt
          simp only [List.length_append]
          omega
        refine ⟨w ++ w', ?_, ?_⟩
        · rw [after_congr hmany, List.append_assoc, ← hw']
          exact hw
        · intro ts hts
          rw [after_congr hmany] at hts
          have hrun := hsame (w' ++ ts) (hw' ▸ hts.append w')
          rw [h] at hrun
          rw [List.append_assoc, many_of_some hrun (hlong ts), hmany]
          exact hsame' ts hts
      · have hmany : Reader.many round s = .ok [a] t := collect_of_stuck h hlt
        obtain rfl : w = [] := by
          rw [hw, List.length_append] at hlt
          exact List.length_eq_zero_iff.1 (by omega)
        refine ⟨[], ?_, ?_⟩
        · rw [after_of_ok hmany]
          exact hw
        · intro ts hts
          rw [after_of_ok hmany] at hts
          have hrun := hsame ts hts
          rw [h] at hrun
          rw [hmany]
          exact collect_of_stuck hrun (Nat.lt_irrefl _)

end Reader

/-- A step, as a run. -/
def Act.reader (options : ParseOptions) (a : Act β) : Reader β := fun s =>
  .ok (a.run options s).1 (a.run options s).2

/-- No step looks further than two tokens past the current one. -/
theorem Lookahead.distance_lt_sight (ahead : Lookahead) : ahead.distance < sight := by
  cases ahead <;> decide

theorem Act.looksNear (a : Act β) : (a.reader options).LooksNear := by
  intro s
  cases a with
  | take =>
    obtain ⟨names, ⟨passed, ahead, beyond, file⟩, depth, literals⟩ := s
    cases ahead with
    | nil =>
      apply Reader.LooksNearFrom.of_same
      · rfl
      · intro ts hts
        obtain rfl : ts = [] := by
          have hcurrent := hts.getElem?_eq (n := 0) (by decide)
          simpa using hcurrent.symm
        rfl
    | cons t ts => exact ⟨[t], rfl, fun _ _ => rfl⟩
  | kind ahead =>
    apply Reader.LooksNearFrom.of_same
    · rfl
    · intro ts hts
      have hkind := ParseState.kindAhead_withAhead hts ahead.distance_lt_sight
      exact congrArg (EStateM.Result.ok · _) hkind
  | current =>
    apply Reader.LooksNearFrom.of_same
    · rfl
    · intro ts hts
      exact congrArg (EStateM.Result.ok · _) (ParseState.current_withAhead hts)
  | position =>
    apply Reader.LooksNearFrom.of_same
    · rfl
    · intro ts hts
      exact congrArg (EStateM.Result.ok · _) (ParseState.position_withAhead hts).1
  | _ =>
    -- The other steps do not look at tokens ahead.
    apply Reader.LooksNearFrom.of_same
    · rfl
    · intro ts hts
      rfl

/-- A phrase looks near, as each of its steps does. -/
theorem Phrase.run_looksNear {below : (g : Goal) → Reader g.Tree} (hb : ∀ g, (below g).LooksNear)
    (p : Phrase α) : (p.run options below).LooksNear := by
  induction p with
  | done value => apply Reader.LooksNear.pure
  | fail expected => apply Reader.LooksNear.fail
  | act a next ih =>
    have hrun : (Phrase.act a next).run options below =
        a.reader options >>= fun b => (next b).run options below := rfl
    rw [hrun]
    apply a.looksNear.bind ih
  | nested g next ih => apply (hb g).bind ih
  | enclosed body next ihb ih => apply ihb.inScope.bind ih
  | structLiterals allowed body next ihb ih => apply (ihb.withStructLiterals allowed).bind ih
  | many round next ihr ih => apply ihr.many.bind ih

theorem Goal.read_looksNear (fuel : Nat) (g : Goal) : (Goal.read options fuel g).LooksNear := by
  induction fuel generalizing g with
  | zero => apply Reader.LooksNear.tooDeep
  | succ fuel ih => apply (Phrase.run_looksNear ih (Grammar.rule g)).nested

theorem Phrase.read_looksNear (p : Phrase α) : (p.read options).LooksNear :=
  p.run_looksNear (Goal.read_looksNear options.maxDepth)

/-- Where a file fails, its reading has moved to a place in the list of tokens. -/
theorem index_of_parse_error {tokens : List Token} {file : String} {e : SyntaxError} {t : ParseState}
    (h : parse tokens file options = .error e t) :
    t.cursor.ahead = tokens.drop t.cursor.index ∧ t.cursor.index ≤ tokens.length := by
  have hpasses : (ParseState.initial tokens file).Passes t :=
    ((Grammar.crate file).run_passes options options.maxDepth).of_error h
  have hbeyond : t.cursor.beyond = 0 := hpasses.beyond_eq
  have htokens : t.cursor.passed.reverse ++ t.cursor.ahead = tokens := hpasses.tokens_eq
  have hindex : t.cursor.index = t.cursor.passed.reverse.length := by
    simp [Cursor.index, hbeyond]
  rw [hindex, ← htokens]
  simp

/-- Lookahead is bounded. No run of a phrase sees a token that is more than two places past the point
where it stops: if other tokens stand there, it ends with the same value or error, and in the same
state but for these tokens. So if a file fails at one of its tokens, then every file with the same
tokens up to the second one after that fails with the same error, with the same names and
redefinitions, and at the same place. -/
theorem parse_eq_of_take_eq :
    (∀ (options : ParseOptions) {α : Type} (p : Phrase α) s, ∃ w,
      s.cursor.ahead = w ++ ((p.read options).after s).cursor.ahead ∧
        ∀ ts, ((p.read options).after s).cursor.ahead.take 3 = ts.take 3 →
          p.read options (s.withAhead (w ++ ts)) = Reader.withAhead ts (p.read options s)) ∧
    ∀ tokens tokens' file options e t, parse tokens file options = .error e t →
      tokens'.take (t.cursor.index + 3) = tokens.take (t.cursor.index + 3) →
      ∃ t', parse tokens' file options = .error e t' ∧ t'.redefinitions = t.redefinitions ∧
        t'.cursor.index = t.cursor.index ∧ t'.cursor.position = t.cursor.position ∧
        t' = t.withAhead (tokens'.drop t.cursor.index) := by
  constructor
  · intro options α p s
    exact p.read_looksNear s
  · intro tokens tokens' file options e t h htake
    obtain ⟨w, hw, hsame⟩ := (Grammar.crate file).read_looksNear (.initial tokens file)
    have hafter : ((Grammar.crate file).read options).after (.initial tokens file) = t :=
      Reader.after_of_error h
    obtain ⟨hahead, hle⟩ := index_of_parse_error h
    have hw : w ++ tokens.drop t.cursor.index = tokens := by
      rw [hafter, hahead] at hw
      exact hw.symm
    -- What is taken is the part before the place of the failure, in both files.
    have hfirst : w = tokens.take t.cursor.index := by
      apply (List.append_left_inj (tokens.drop t.cursor.index)).1
      rw [hw, List.take_append_drop]
    have hsplit : tokens' = w ++ tokens'.drop t.cursor.index := by
      have hcut := congrArg (List.take t.cursor.index) htake
      rw [List.take_take, List.take_take, Nat.min_eq_left (Nat.le_add_right _ _)] at hcut
      rw [hfirst, ← hcut, List.take_append_drop]
    have halike : LookAlike t.cursor.ahead (tokens'.drop t.cursor.index) := by
      rw [hahead, LookAlike, List.take_drop, List.take_drop, sight, htake]
    have hrun := hsame (tokens'.drop t.cursor.index) (by rwa [hafter])
    have hparse : parse tokens' file options =
        .error e (t.withAhead (tokens'.drop t.cursor.index)) := by
      have hstart : (ParseState.initial tokens file).withAhead tokens' = .initial tokens' file := rfl
      rw [← hsplit, hstart] at hrun
      have hfail : (Grammar.crate file).read options (.initial tokens file) = .error e t := h
      rw [hfail] at hrun
      exact hrun
    exact ⟨_, hparse, rfl, rfl, (ParseState.position_withAhead halike).1, rfl⟩

/-- Two constants whose types are missing, with other tokens further on. -/
theorem parse_eq_of_take_eq_constant :
    let tokens := [TokenKind.kwConst, .underscore, .colon, .semicolon, .comma, .comma]
    let tokens' := tokens ++ [.plus, .kwFn]
    ∃ e t, parse (tokens.map Token.fixed) "t" = .error e t ∧
      ∃ t', parse (tokens'.map Token.fixed) "t" = .error e t' ∧
        t'.cursor.index = t.cursor.index := by
  intro tokens tokens'
  have hindex : (match parse (tokens.map Token.fixed) "t" with
    | .error _ t => t.cursor.index
    | .ok _ _ => 0) = 3 := by decide +kernel
  cases h : parse (tokens.map Token.fixed) "t" with
  | ok c t =>
    rw [h] at hindex
    exact absurd hindex nofun
  | error e t =>
    rw [h] at hindex
    have hindex : t.cursor.index = 3 := hindex
    have htake : (tokens'.map Token.fixed).take (t.cursor.index + 3) =
        (tokens.map Token.fixed).take (t.cursor.index + 3) := by
      rw [hindex]
      rfl
    obtain ⟨t', ht', -, hsame, -⟩ := parse_eq_of_take_eq.2 _ _ "t" {} e t h htake
    exact ⟨e, t, rfl, t', ht', hsame⟩

end FrontEnd
