import FrontEnd.Token.Cursor
import Mathlib.Tactic.ByContra
/-!
# Moves of a cursor

A cursor is asked to look at tokens and to pass them, as often and in whatever order one likes. It
moves only by passing the current token, one at a time, and knows which it has passed last. One
request is an exception: where no token is left, the end can be eaten again and again. Then the cursor
moves without a token, beyond all tokens, and has forgotten the one that it passed last.
-/
namespace FrontEnd.Cursor

inductive Request
  | peek
  | peekAhead (n : Nat)
  | consume
  | eat (k : TokenKind)
  | eatValue (k : TokenKind) (value : String)
  | kind
  | kindAhead (n : Nat)
  | previous

inductive Answer
  | token (found : Except SyntaxError Token)
  | done (success : Bool)
  | kind (kind : TokenKind)
  | previous (token : Option Token)

def serve (c : Cursor) : Request → Answer × Cursor
  | .peek => (.token c.peek, c)
  | .peekAhead n => (.token (c.peekAhead n), c)
  | .consume =>
    match c.consume with
    | .ok (t, c') => (.token (.ok t), c')
    | .error e => (.token (.error e), c)
  | .eat k => (.done (c.eat k).1, (c.eat k).2)
  | .eatValue k value => (.done (c.eatValue k value).1, (c.eatValue k value).2)
  | .kind => (.kind c.kind, c)
  | .kindAhead n => (.kind (c.kindAhead n), c)
  | .previous => (.previous c.previous?, c)

def run (c : Cursor) (requests : List Request) : Cursor :=
  requests.foldl (fun c r => (c.serve r).2) c

/-- The token moved past last on the way through some requests; before them it was `last`. -/
def latest (c : Cursor) (last : Option Token) : List Request → Option Token
  | [] => last
  | r :: rs =>
    let c' := (c.serve r).2
    c'.latest (if c'.index = c.index then last else (c.ahead? 0).or last) rs

def Request.Passes : Request → Prop
  | consume | eat _ | eatValue _ _ => True
  | _ => False

/-- The token that a request asks to pass: the current one, if it is as the request says. -/
def target? (c : Cursor) : Request → Option Token
  | .consume => c.ahead? 0
  | .eat k => (c.ahead? 0).filter (·.kind = k)
  | .eatValue k value => (c.ahead? 0).filter fun t => t.kind = k ∧ t.value = value
  | _ => none

/-- The answer reports that a token was passed. -/
def Answer.Grants (t : Token) : Answer → Prop
  | token found => found = .ok t
  | done success => success = true
  | _ => False

/-- The answer reports that no token was passed. -/
def Answer.Refuses : Answer → Prop
  | token found => ∃ e, found = .error e
  | done success => success = false
  | _ => False

/-- A request is served as it says: the current token is passed and no other, if it is the one asked
for, else nothing changes, and the answer reports which. A token is eaten exactly if consuming it
would succeed with one of the kind. -/
structure Faithful (c : Cursor) (r : Request) : Prop where
  passes : ∀ t, c.target? r = some t → (c.serve r).2.index = c.index + 1 ∧
    (c.serve r).2.ahead = c.ahead.tail ∧ (c.serve r).1.Grants t
  stays : c.target? r = none → (c.serve r).2 = c ∧ (r.Passes → (c.serve r).1.Refuses)
  eats : ∀ k, r = .eat k → ((c.eat k).1 = true ↔ ∃ t c', c.consume = .ok (t, c') ∧ t.kind = k)

variable {c : Cursor} {r : Request} {t : Token} {requests : List Request}

theorem consume_eq (c : Cursor) : c.consume =
    match c.ahead? 0 with
    | some t => .ok (t, c.advance)
    | none => .error c.noToken := by
  unfold consume peek peekAhead
  cases c.ahead? 0 <;> rfl

theorem eat_snd (c : Cursor) (k : TokenKind) :
    (c.eat k).2 = if (c.eat k).1 then c.advance else c := by
  unfold eat
  split <;> rfl

/-- A token is eaten if the current one is of the kind; the end is eaten where none is left, too. -/
theorem eat_eq_true_iff (c : Cursor) (k : TokenKind) : (c.eat k).1 = true ↔
    (∃ t, c.ahead? 0 = some t ∧ t.kind = k) ∨ k = .eof ∧ c.ahead? 0 = none := by
  unfold eat kind kindAhead
  cases c.ahead? 0 with
  | none => by_cases hk : k = .eof <;> simp [hk, eq_comm]
  | some t => by_cases hk : t.kind = k <;> simp [hk]

theorem eatValue_snd (c : Cursor) (k : TokenKind) (value : String) :
    (c.eatValue k value).2 = if (c.eatValue k value).1 then c.advance else c := by
  unfold eatValue
  cases c.ahead with
  | nil => rfl
  | cons t ts => by_cases h : t.kind = k ∧ t.value = value <;> simp [h]

theorem eatValue_eq_true_iff (c : Cursor) (k : TokenKind) (value : String) :
    (c.eatValue k value).1 = true ↔
      ∃ t, c.ahead? 0 = some t ∧ t.kind = k ∧ t.value = value := by
  unfold eatValue ahead?
  cases c.ahead with
  | nil => simp
  | cons t ts => by_cases h : t.kind = k ∧ t.value = value <;> simp [h]

/-- A token that is asked for is passed, and this is reported. -/
theorem serve_of_target (h : c.target? r = some t) :
    c.ahead? 0 = some t ∧ (c.serve r).2 = c.advance ∧ (c.serve r).1.Grants t := by
  cases r with
  | consume =>
    have h : c.ahead? 0 = some t := h
    simp [serve, consume_eq, h, Answer.Grants]
  | eat k =>
    obtain ⟨ht, hk⟩ := Option.filter_eq_some_iff.1 h
    have heaten : (c.eat k).1 = true := (c.eat_eq_true_iff k).2 (.inl ⟨t, ht, of_decide_eq_true hk⟩)
    simp [serve, eat_snd, heaten, ht, Answer.Grants]
  | eatValue k value =>
    obtain ⟨ht, hk⟩ := Option.filter_eq_some_iff.1 h
    have heaten : (c.eatValue k value).1 = true :=
      (c.eatValue_eq_true_iff k value).2 ⟨t, ht, of_decide_eq_true hk⟩
    simp [serve, eatValue_snd, heaten, ht, Answer.Grants]
  | _ => cases h

/-- Without a token that is asked for nothing changes, and this is reported, unless it is the end
that is eaten where no token is left. -/
theorem serve_of_no_target (h : c.target? r = none) (hend : r = .eat .eof → c.ahead? 0 ≠ none) :
    (c.serve r).2 = c ∧ (r.Passes → (c.serve r).1.Refuses) := by
  cases r with
  | consume =>
    have h : c.ahead? 0 = none := h
    simp [serve, consume_eq, h, Answer.Refuses]
  | eat k =>
    have hrefused : (c.eat k).1 = false := by
      rw [← Bool.not_eq_true, eat_eq_true_iff]
      rintro (⟨t, ht, hk⟩ | ⟨rfl, hnone⟩)
      · simp [target?, ht, hk] at h
      · exact hend rfl hnone
    simp [serve, eat_snd, hrefused, Answer.Refuses]
  | eatValue k value =>
    have hrefused : (c.eatValue k value).1 = false := by
      rw [← Bool.not_eq_true, eatValue_eq_true_iff]
      rintro ⟨t, ht, hk⟩
      simp [target?, ht, hk] at h
    simp [serve, eatValue_snd, hrefused, Answer.Refuses]
  | _ => exact ⟨rfl, nofun⟩

/-- Where the end is eaten without a token, the cursor moves all the same, beyond all tokens. -/
theorem serve_eat_eof (h : c.ahead? 0 = none) :
    (c.serve (.eat .eof)).1 = .done true ∧ (c.serve (.eat .eof)).2 = c.advance := by
  have heaten : (c.eat .eof).1 = true := (c.eat_eq_true_iff .eof).2 (.inr ⟨rfl, h⟩)
  simp [serve, eat_snd, heaten]

/-- Every request is served as it says, but for one: to eat the end where no token is left. -/
theorem faithful_iff (c : Cursor) (r : Request) :
    c.Faithful r ↔ (r = .eat .eof → c.ahead? 0 ≠ none) := by
  constructor
  · rintro h rfl hnone
    obtain ⟨-, hmoved⟩ := serve_eat_eof hnone
    have hstays := (h.stays (by simp [target?, hnone])).1
    rw [hmoved] at hstays
    have hindex := congrArg index hstays
    simp at hindex
  · intro hend
    refine ⟨fun t ht => ?_, fun hnone => serve_of_no_target hnone hend, ?_⟩
    · obtain ⟨-, hmoved, hgrants⟩ := serve_of_target ht
      exact ⟨by simp [hmoved], by rw [hmoved, ahead_advance], hgrants⟩
    · rintro k rfl
      rw [eat_eq_true_iff, consume_eq]
      cases h : c.ahead? 0 with
      | none =>
        have hk : k ≠ .eof := fun hk => hend (by rw [hk]) h
        simp [hk]
      | some t => simp

@[simp] theorem tokens_serve (c : Cursor) (r : Request) : (c.serve r).2.tokens = c.tokens := by
  by_cases h : (c.serve r).2 = c
  · rw [h]
  · cases ht : c.target? r with
    | some t => rw [(serve_of_target ht).2.1, tokens_advance]
    | none =>
      obtain ⟨rfl, hnone⟩ : r = .eat .eof ∧ c.ahead? 0 = none := by
        by_contra hend
        exact h (serve_of_no_target ht (by simpa using hend)).1
      rw [(serve_eat_eof hnone).2, tokens_advance]

@[simp] theorem tokens_run (c : Cursor) (requests : List Request) :
    (c.run requests).tokens = c.tokens := by
  induction requests generalizing c with
  | nil => rfl
  | cons r rs ih => exact (ih (c.serve r).2).trans (c.tokens_serve r)

/-- A cursor that has not moved beyond the tokens stands within them. -/
theorem index_le (h : c.beyond = 0) : c.index ≤ c.tokens.length := by
  simp [index, tokens, h]

/-- What one faithful step keeps: the cursor is among the tokens and knows the one passed last. -/
theorem Faithful.step (h : c.Faithful r) (hbeyond : c.beyond = 0) :
    (c.serve r).2.beyond = 0 ∧ (c.serve r).2.previous? =
      if (c.serve r).2.index = c.index then c.previous? else (c.ahead? 0).or c.previous? := by
  cases ht : c.target? r with
  | none => simp [(h.stays ht).1, hbeyond]
  | some t =>
    obtain ⟨hahead, hmoved, -⟩ := serve_of_target ht
    obtain ⟨passed, ahead, beyond, file⟩ := c
    obtain ⟨ts, rfl⟩ : ∃ ts, ahead = t :: ts := by
      cases ahead with
      | nil => simp [ahead?] at hahead
      | cons u ts => exact ⟨ts, by simpa [ahead?] using hahead⟩
    have hbeyond : beyond = 0 := hbeyond
    rw [hmoved, if_neg (by simp)]
    simp [advance, previous?, ahead?, hbeyond]

/-- What a run of faithful steps keeps. -/
theorem run_faithful (h : ∀ before r after, requests = before ++ r :: after →
      (c.run before).Faithful r) (hbeyond : c.beyond = 0) :
    (c.run requests).beyond = 0 ∧ (c.run requests).previous? = c.latest c.previous? requests := by
  induction requests generalizing c with
  | nil => exact ⟨hbeyond, rfl⟩
  | cons r rs ih =>
    have hr : c.Faithful r := h [] r rs rfl
    obtain ⟨hbeyond', hprevious⟩ := hr.step hbeyond
    have hrest : ∀ before r' after, rs = before ++ r' :: after →
        ((c.serve r).2.run before).Faithful r' := by
      rintro before r' after rfl
      exact h (r :: before) r' after rfl
    obtain ⟨hend, hlast⟩ := ih hrest hbeyond'
    rw [hprevious] at hlast
    exact ⟨hend, hlast⟩

/-- A cursor moves within its tokens, passes exactly those that it is asked to pass and knows the one
that it passed last, all along a run of requests, if and only if the end is never eaten where no token
is left. -/
theorem run_faithful_iff (tokens : List Token) (file : String) (requests : List Request) :
    let start := ofList tokens file
    ((∀ before after, requests = before ++ after →
        (start.run before).index ≤ tokens.length ∧
        (start.run before).previous? = start.latest none before) ∧
      ∀ before r after, requests = before ++ r :: after → (start.run before).Faithful r) ↔
    ∀ before after, requests = before ++ .eat .eof :: after → (start.run before).ahead? 0 ≠ none := by
  intro start
  constructor
  · rintro ⟨-, hfaithful⟩ before after hsplit
    exact (faithful_iff _ _).1 (hfaithful before _ after hsplit) rfl
  · intro hend
    have hfaithful : ∀ before r after, requests = before ++ r :: after →
        (start.run before).Faithful r := by
      intro before r after hsplit
      refine (faithful_iff _ _).2 ?_
      rintro rfl
      exact hend before after hsplit
    refine ⟨fun before after hsplit => ?_, hfaithful⟩
    subst hsplit
    have hwithin : ∀ before' r after', before = before' ++ r :: after' →
        (start.run before').Faithful r := by
      rintro before' r after' rfl
      exact hfaithful before' r (after' ++ after) (by simp)
    obtain ⟨hbeyond, hlast⟩ := run_faithful hwithin rfl
    refine ⟨?_, hlast⟩
    have hle := index_le hbeyond
    rwa [tokens_run] at hle

/-- The one token is consumed, then the end is eaten where no token is left. The cursor stands beyond
the token, says that it has eaten what consuming would not find, and no longer knows the token that
it passed. -/
theorem run_not_faithful_past_end :
    let a : Token := ⟨.identifier, "a", ⟨⟨0, "t"⟩, ⟨1, "t"⟩⟩⟩
    let start := ofList [a] "t"
    let c := start.run [.consume]
    ¬c.Faithful (.eat .eof) ∧
    ¬((c.serve (.eat .eof)).1 = .done true →
      ∃ t c', c.consume = .ok (t, c') ∧ t.kind = .eof) ∧
    ¬(start.run [.consume, .eat .eof]).index ≤ [a].length ∧
    (start.run [.consume, .eat .eof]).previous? ≠ start.latest none [.consume, .eat .eof] := by
  intro a start c
  have hend : c.ahead? 0 = none := rfl
  refine ⟨?_, ?_, by decide, by decide⟩
  · rw [faithful_iff]
    exact fun h => h rfl hend
  · intro h
    obtain ⟨t, c', hconsume, -⟩ := h rfl
    cases hconsume

end FrontEnd.Cursor
