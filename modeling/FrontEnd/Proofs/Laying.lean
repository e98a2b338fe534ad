import FrontEnd.Proofs.Laid
import FrontEnd.Proofs.Yields
/-!
# Laying pieces

What a run reads since some place makes a row of pieces, and every step of a phrase makes the row
longer or makes one node of it. There is one law for every way to make a phrase, so that the pieces
that a phrase lays follow from its text.
-/
namespace FrontEnd

open Piece (mark maybe token flag eachAfter more)

variable {α β : Type} {options : ParseOptions} {fuel : Nat} {pos : Position} {ps : List Piece}
  {i : List Token}

/-- The tokens of a cursor, passed or not, stay the same. -/
theorem tokens_invariant (options : ParseOptions) :
    Invariant options fun s t => t.cursor.tokens = s.cursor.tokens where
  refl _ := rfl
  trans _ _ _ h h' := h'.trans h
  act a s := by
    cases a with
    | take =>
      simp only [Act.run]
      split
      · exact s.cursor.tokens_advance
      · rfl
    | _ => rfl
  nested _ h := h
  inScope h := h
  structLiterals _ h := h

/-- After the tokens of `base` a row of pieces has been read, which starts at a place, and some
tokens are left. -/
structure ParseState.Row (base : List Token) (pos : Position) (ps : List Piece) (i : List Token)
    (s : ParseState) : Prop where
  laid : ∃ w e, s.cursor.passed = w.reverse ++ base ∧ Laid ps w e ∧
    ∀ t ∈ (w ++ i).head?, t.span.start = pos
  ahead : s.cursor.ahead = i
  beyond : s.cursor.beyond = 0

/-- Where nothing has been read yet, the row starts with the current token. -/
theorem ParseState.Row.first {base : List Token} {s : ParseState} (hs : s.Row base pos [] i) :
    ∀ t ∈ i.head?, t.span.start = pos := by
  obtain ⟨w, e, -, hlaid, hpos⟩ := hs.laid
  obtain rfl := hlaid.eq_nil
  exact hpos

namespace Phrase

/-- Every successful run of a phrase goes on with a row of pieces, so that the postcondition holds
of its value, of the row that there is then and of the tokens left. -/
def Lays (options : ParseOptions) (fuel : Nat) (p : Phrase α) (pos : Position) (ps : List Piece)
    (i : List Token) (Q : α → List Piece → List Token → Prop) : Prop :=
  ∀ base s a t, s.Row base pos ps i → p.run options (Goal.read options fuel) s = .ok a t →
    ∃ qs j, t.Row base pos qs j ∧ Q a qs j

def Spells (options : ParseOptions) (fuel : Nat) (p : Phrase α) (pieces : α → List Piece) : Prop :=
  ∀ pos i, p.Lays options fuel pos [] i fun a ps _ => ps = pieces a

namespace Lays

variable {p : Phrase α} {f : α → Phrase β} {Q Q' : α → List Piece → List Token → Prop}
  {R : β → List Piece → List Token → Prop} {k : TokenKind}

theorem pure {a : α} (h : Q a ps i) : Lays options fuel (Pure.pure a) pos ps i Q := by
  rintro base s c t hs ⟨⟩
  exact ⟨ps, i, hs, h⟩

theorem fail {expected : String} : Lays options fuel (Phrase.fail expected) pos ps i Q :=
  nofun

theorem bind (hp : Lays options fuel p pos ps i Q)
    (hf : ∀ a qs j, Q a qs j → Lays options fuel (f a) pos qs j R) :
    Lays options fuel (p >>= f) pos ps i R := by
  intro base s c u hs h
  rw [run_bind] at h
  obtain ⟨a, t, hr, hft⟩ := Reader.ok_of_bind h
  obtain ⟨qs, j, ht, hq⟩ := hp base s a t hs hr
  exact hf a qs j hq base t c u ht hft

theorem mono (hp : Lays options fuel p pos ps i Q) (h : ∀ a qs j, Q a qs j → Q' a qs j) :
    Lays options fuel p pos ps i Q' := by
  intro base s a t hs hr
  obtain ⟨qs, j, ht, hq⟩ := hp base s a t hs hr
  exact ⟨qs, j, ht, h a qs j hq⟩

theorem ite {c : Prop} [Decidable c] {q : Phrase α} (hp : c → Lays options fuel p pos ps i Q)
    (hq : ¬c → Lays options fuel q pos ps i Q) :
    Lays options fuel (if c then p else q) pos ps i Q := by
  split
  · exact hp ‹_›
  · exact hq ‹_›

/-- What has been read is taken for other pieces in the end. -/
theorem turn (hp : Lays options fuel p pos ps i Q)
    (h : ∀ a qs j, Q a qs j → Lays options fuel (Pure.pure a) pos qs j Q') :
    Lays options fuel p pos ps i Q' :=
  bind_pure p ▸ hp.bind h

/-- What has been read is taken for other pieces. -/
theorem become {qs : List Piece} (hp : Lays options fuel p pos qs i Q)
    (h : ∀ w e, Laid ps w e → (∀ t ∈ w.head?, t.span.start = pos) → ∃ e', Laid qs w e') :
    Lays options fuel p pos ps i Q := by
  intro base s a t hs hr
  obtain ⟨⟨w, e, hpassed, hlaid, hpos⟩, hahead, hbeyond⟩ := hs
  have hw : ∀ t ∈ w.head?, t.span.start = pos := fun t ht =>
    hpos t (by simp [List.head?_append, Option.mem_def.mp ht])
  obtain ⟨e', hlaid'⟩ := h w e hlaid hw
  exact hp base s a t ⟨⟨w, e', hpassed, hlaid', hpos⟩, hahead, hbeyond⟩ hr

/-- A phrase that lays a row lays it behind any other. -/
theorem behind (hp : ∀ pos, Lays options fuel p pos [] i Q) :
    Lays options fuel p pos ps i fun a rs j => ∃ qs, rs = ps ++ qs ∧ Q a qs j := by
  intro base s a t hs hr
  obtain ⟨⟨w, e, hpassed, hlaid, hpos⟩, hahead, hbeyond⟩ := hs
  let pos' : Position := (i.head?.map fun t => t.span.start).getD pos
  have hs' : s.Row (w.reverse ++ base) pos' [] i :=
    ⟨⟨[], none, hpassed, .nil, fun t ht => by simp_all [pos']⟩, hahead, hbeyond⟩
  obtain ⟨qs, j, ⟨⟨v, e', hpassed', hlaid', -⟩, hahead', hbeyond'⟩, hq⟩ := hp _ _ s a t hs' hr
  have htokens := ((tokens_invariant options).run ((tokens_invariant options).goal fuel) p).of_ok hr
  have hi : i = v ++ j := by
    simpa [Cursor.tokens, hpassed, hpassed', hahead, hahead', eq_comm] using htokens
  obtain ⟨e'', hlaid''⟩ := hlaid.append hlaid'
  refine ⟨ps ++ qs, j, ⟨⟨w ++ v, e'', ?_, hlaid'', ?_⟩, hahead', hbeyond'⟩, qs, rfl, hq⟩
  · rw [hpassed', List.reverse_append, List.append_assoc]
  · rwa [List.append_assoc, ← hi]

/-- The pieces of a phrase, and how it goes on. -/
theorem spelled {pieces : α → List Piece} (hp : p.Spells options fuel pieces)
    (hf : ∀ a j, Lays options fuel (f a) pos (ps ++ pieces a) j R) :
    Lays options fuel (p >>= f) pos ps i R := by
  refine (behind fun pos => hp pos i).bind ?_
  rintro a - j ⟨-, rfl, rfl⟩
  exact hf a j

theorem kind {f : TokenKind → Phrase β} (h : Lays options fuel (f (kindAt i 0)) pos ps i R) :
    Lays options fuel (kind >>= f) pos ps i R := by
  intro base s a t hs hr
  obtain rfl := hs.ahead
  exact h base s a t hs hr

theorem nextKind {f : TokenKind → Phrase β} (h : Lays options fuel (f (kindAt i 1)) pos ps i R) :
    Lays options fuel (nextKind >>= f) pos ps i R := by
  intro base s a t hs hr
  obtain rfl := hs.ahead
  exact h base s a t hs hr

theorem kindAfterNext {f : TokenKind → Phrase β}
    (h : Lays options fuel (f (kindAt i 2)) pos ps i R) :
    Lays options fuel (kindAfterNext >>= f) pos ps i R := by
  intro base s a t hs hr
  obtain rfl := hs.ahead
  exact h base s a t hs hr

theorem allowsStructLiterals {f : Bool → Phrase β} (h : ∀ b, Lays options fuel (f b) pos ps i R) :
    Lays options fuel (allowsStructLiterals >>= f) pos ps i R :=
  fun base s a t hs hr => h s.structLiterals base s a t hs hr

theorem isConstant {f : Bool → Phrase β} {name : String}
    (h : ∀ b, Lays options fuel (f b) pos ps i R) :
    Lays options fuel (isConstant name >>= f) pos ps i R :=
  fun base s a t hs hr => h _ base s a t hs hr

theorem position {f : Position → Phrase β} (h : ∀ place, (∀ t ∈ i.head?, place = t.span.start) →
    Lays options fuel (f place) pos ps i R) : Lays options fuel (position >>= f) pos ps i R := by
  intro base s a u hs hr
  refine h s.cursor.position (fun t ht => ?_) base s a u hs hr
  obtain rfl := hs.ahead
  obtain ⟨n, ⟨passed, _ | ⟨t', ts⟩, beyond, file⟩, depth, allowed⟩ := s <;> cases ht
  rfl

theorem declare {f : Unit → Phrase β} {symbol : Symbol} {place : Position}
    (h : Lays options fuel (f ()) pos ps i R) :
    Lays options fuel (declare symbol place >>= f) pos ps i R :=
  fun base s a t hs hr =>
    h base { s with toNames := s.declare symbol place } a t ⟨hs.1, hs.2, hs.3⟩ hr

theorem bindAll {f : Unit → Phrase β} {symbols : List Symbol}
    (h : Lays options fuel (f ()) pos ps i R) :
    Lays options fuel (bindAll symbols >>= f) pos ps i R := by
  induction symbols with
  | nil => exact h
  | cons symbol symbols ih =>
    exact fun base s a t hs hr =>
      ih base { s with toNames := s.bind symbol } a t ⟨hs.1, hs.2, hs.3⟩ hr

theorem current {f : Token → Phrase β}
    (h : ∀ t, i.head? = some t → (ps = [] → t.span.start = pos) →
      Lays options fuel (f t) pos ps i R) :
    Lays options fuel (current >>= f) pos ps i R := by
  intro base s a u hs hr
  have hfirst : ∀ t ∈ i.head?, ps = [] → t.span.start = pos := by
    rintro t ht rfl
    exact hs.first t ht
  obtain rfl := hs.ahead
  obtain ⟨n, ⟨passed, _ | ⟨t, ts⟩, beyond, file⟩, depth, allowed⟩ := s
  · cases hr
  · exact h t rfl (hfirst t rfl) base _ a u hs hr

/-- The current token makes the row longer. -/
theorem take {f : Token → Phrase β}
    (h : ∀ t j, i = t :: j → (ps = [] → t.span.start = pos) → ∃ q,
      (∀ {w e}, Laid ps w e → Laid (ps ++ [q]) (w ++ [t]) none) ∧
        Lays options fuel (f t) pos (ps ++ [q]) j R) :
    Lays options fuel (take >>= f) pos ps i R := by
  intro base s a u hs hr
  have hfirst : ∀ t ∈ i.head?, ps = [] → t.span.start = pos := by
    rintro t ht rfl
    exact hs.first t ht
  obtain ⟨⟨w, e, hpassed, hlaid, hpos⟩, rfl, hbeyond⟩ := hs
  obtain ⟨n, ⟨passed, _ | ⟨t, ts⟩, beyond, file⟩, depth, allowed⟩ := s
  · cases hr
  · obtain ⟨q, hq, hp⟩ := h t ts rfl (hfirst t rfl)
    have hpassed' : t :: passed = (w ++ [t]).reverse ++ base := by
      obtain rfl : passed = _ := hpassed
      simp
    refine hp base ⟨n, ⟨t :: passed, ts, beyond, file⟩, depth, allowed⟩ a u
      ⟨⟨w ++ [t], none, hpassed', hq hlaid, ?_⟩, rfl, hbeyond⟩ hr
    simpa using hpos

theorem takeMark {f : Token → Phrase β} (hk : kindAt i 0 = k)
    (h : ∀ t j, t.kind = k → (ps = [] → t.span.start = pos) →
      Lays options fuel (f t) pos (ps ++ [mark k]) j R) :
    Lays options fuel (Phrase.take >>= f) pos ps i R := by
  refine take fun t j hi hpos => ⟨mark k, fun hlaid => ?_, h t j ?_ hpos⟩
  all_goals obtain rfl : t.kind = k := by simpa [hi] using hk
  · exact hlaid.mark t
  · rfl

theorem takeToken {f : Token → Phrase β}
    (h : ∀ t j, i = t :: j → (ps = [] → t.span.start = pos) →
      Lays options fuel (f t) pos (ps ++ [token t]) j R) :
    Lays options fuel (Phrase.take >>= f) pos ps i R :=
  take fun t j hi hpos => ⟨token t, fun hlaid => hlaid.token t, h t j hi hpos⟩

theorem expectMark {f : Token → Phrase β}
    (h : ∀ t j, t.kind = k → (ps = [] → t.span.start = pos) →
      Lays options fuel (f t) pos (ps ++ [mark k]) j R) :
    Lays options fuel (expect k >>= f) pos ps i R := by
  unfold expect
  rw [bind_assoc]
  refine kind ?_
  split
  · exact takeMark ‹_› h
  · exact fail

theorem expectToken {f : Token → Phrase β}
    (h : ∀ t j, t.kind = k → (ps = [] → t.span.start = pos) →
      Lays options fuel (f t) pos (ps ++ [token t]) j R) :
    Lays options fuel (expect k >>= f) pos ps i R := by
  unfold expect
  rw [bind_assoc]
  refine kind ?_
  split
  · rename_i hk
    exact takeToken fun t j hi hpos => h t j (by simpa [hi] using hk) hpos
  · exact fail

theorem expectOneOf {f : Token → Phrase β} {ks : List TokenKind} {expected : String}
    (h : ∀ t j, (ps = [] → t.span.start = pos) →
      Lays options fuel (f t) pos (ps ++ [token t]) j R) :
    Lays options fuel (expectOneOf ks expected >>= f) pos ps i R := by
  intro base s a u hs hr
  obtain ⟨n, ⟨passed, _ | ⟨t, ts⟩, beyond, file⟩, depth, allowed⟩ := s
  · cases hr
  · rw [run_bind] at hr
    obtain ⟨t', v, ht, hf⟩ := Reader.ok_of_bind hr
    by_cases hk : t.kind ∈ ks
    · refine takeToken (fun t j _ => h t j) base _ a u hs ?_
      rw [run_bind]
      simp only [Phrase.expectOneOf, run, Act.run, Cursor.ahead?, List.getElem?_cons_zero, hk,
        if_true] at ht
      exact (Reader.bind_of_ok ht).trans hf
    · simp only [Phrase.expectOneOf, run, Act.run, Cursor.ahead?, List.getElem?_cons_zero, hk,
        if_false] at ht
      cases ht

/-- A token that may be there, as a condition. -/
theorem ifEat {p q : Phrase α} (hp : ∀ j, Lays options fuel p pos (ps ++ [mark k]) j Q)
    (hq : kindAt i 0 ≠ k → Lays options fuel q pos ps i Q) :
    Lays options fuel (eat k >>= fun eaten => if eaten then p else q) pos ps i Q := by
  unfold eat
  rw [bind_assoc]
  refine kind ?_
  split
  · rw [bind_assoc]
    exact takeMark ‹_› fun t j _ _ => hp j
  · exact hq ‹_›

/-- A token that may be there, as a flag. -/
theorem flag {f : Bool → Phrase β}
    (h : ∀ set j, Lays options fuel (f set) pos (ps ++ Piece.flag k set) j R) :
    Lays options fuel (eat k >>= f) pos ps i R := by
  unfold eat
  rw [bind_assoc]
  refine kind ?_
  split
  · rw [bind_assoc]
    exact takeMark ‹_› fun t j _ _ => h true j
  · have hf := h false i
    rwa [Piece.flag, if_neg Bool.false_ne_true, List.append_nil] at hf

theorem map {f : α → β} (h : Lays options fuel (p >>= fun a => Pure.pure (f a)) pos ps i R) :
    Lays options fuel (f <$> p) pos ps i R := by
  rwa [map_eq_pure_bind]

theorem inScope (hp : Lays options fuel p pos ps i Q) :
    Lays options fuel (inScope p) pos ps i Q := by
  intro base s a t hs h
  rw [run_inScope] at h
  obtain ⟨u, hu, rfl⟩ := Reader.ok_of_between h
  obtain ⟨qs, j, ht, hq⟩ := hp base { s with toNames := s.push } a u ⟨hs.1, hs.2, hs.3⟩ hu
  exact ⟨qs, j, ⟨ht.1, ht.2, ht.3⟩, hq⟩

theorem withStructLiterals {allowed : Bool} (hp : Lays options fuel p pos ps i Q) :
    Lays options fuel (withStructLiterals allowed p) pos ps i Q := by
  intro base s a t hs h
  rw [run_withStructLiterals] at h
  obtain ⟨u, hu, rfl⟩ := Reader.ok_of_between h
  obtain ⟨qs, j, ht, hq⟩ := hp base { s with structLiterals := allowed } a u ⟨hs.1, hs.2, hs.3⟩ hu
  exact ⟨qs, j, ⟨ht.1, ht.2, ht.3⟩, hq⟩

/-- A goal is read by its rule. -/
theorem goal {g : Goal} {Q : g.Tree → List Piece → List Token → Prop}
    (hg : ∀ rounds, fuel = rounds + 1 → Lays options rounds (Grammar.rule g) pos ps i Q) :
    Lays options fuel (goal g) pos ps i Q := by
  intro base s a t hs h
  rw [run_goal] at h
  cases fuel with
  | zero => cases h
  | succ rounds =>
    obtain ⟨-, u, hu, rfl⟩ := Reader.ok_of_nested h
    obtain ⟨qs, j, ht, hq⟩ :=
      hg rounds rfl base { s with depth := s.depth + 1 } a u ⟨hs.1, hs.2, hs.3⟩ hu
    exact ⟨qs, j, ⟨ht.1, ht.2, ht.3⟩, hq⟩

/-- A loop yields what is kept from the end to the start of it. -/
theorem repeated {round : Phrase (Option α)}
    {I : List Piece → List Token → List α → List Piece → List Token → Prop}
    (hnil : ∀ ps i, I ps i [] ps i) (h : ∀ ps i, Lays options fuel round pos ps i fun
      | none, qs, j => I ps i [] qs j
      | some a, qs, j => ∀ as rs k, I qs j as rs k → I ps i (a :: as) rs k) :
    Lays options fuel (repeated round) pos ps i (I ps i) := by
  have collect (rounds : Nat) : ∀ base s as t ps i, s.Row base pos ps i →
      Reader.collect (round.run options (Goal.read options fuel)) rounds s = .ok as t →
      ∃ qs j, t.Row base pos qs j ∧ I ps i as qs j := by
    induction rounds with
    | zero =>
      rintro base s as t ps i hs ⟨⟩
      exact ⟨ps, i, hs, hnil ps i⟩
    | succ rounds ih =>
      intro base s as t ps i hs hr
      match hround : round.run options (Goal.read options fuel) s with
      | .error e u => rw [Reader.collect_of_error hround] at hr; cases hr
      | .ok none u =>
        rw [Reader.collect_of_none hround] at hr
        cases hr
        exact h ps i base s none t hs hround
      | .ok (some a) u =>
        obtain ⟨qs, j, hu, hcons⟩ := h ps i base s (some a) u hs hround
        by_cases hless : u.cursor.ahead.length < s.cursor.ahead.length
        · rw [Reader.collect_of_some hround hless] at hr
          obtain ⟨as', u', hr, ⟨⟩⟩ := Reader.ok_of_bind hr
          obtain ⟨rs, k, ht, hI⟩ := ih base u as' t qs j hu hr
          exact ⟨rs, k, ht, hcons as' rs k hI⟩
        · rw [Reader.collect_of_stuck hround hless] at hr
          cases hr
          exact ⟨qs, j, hu, hcons [] qs j (hnil qs j)⟩
  intro base s as t hs hr
  rw [run_repeated] at hr
  exact collect _ base s as t ps i hs hr

variable {sp : Span} {n : Node}

/-- A row that begins with a node begins where that node does, unless the node is a type. -/
theorem opening (hps : ps.head? = some (.node sp n)) (hn : ∀ a, n ≠ .ty a)
    (hp : sp.start = pos → Lays options fuel p pos ps i Q) : Lays options fuel p pos ps i Q := by
  intro base s a t hs hr
  obtain ⟨w, e, -, hlaid, hpos⟩ := hs.laid
  obtain ⟨u, hu, hstart⟩ := hlaid.starts hps hn
  refine hp (hstart.trans (hpos u ?_)) base s a t hs hr
  simp [List.head?_append, Option.mem_def.mp hu]

/-- The row becomes a node that ends where the last piece does. -/
theorem gather {q : Piece} {s : Span} {qs : List Piece}
    (hp : Lays options fuel p pos [.node sp n] i Q) (hn : n.pieces = ps) (hstart : sp.start = pos)
    (hps : ps = qs ++ [q]) (hq : q.span? = some s) (hstop : sp.stop = s.stop) :
    Lays options fuel p pos ps i Q := by
  subst hps
  refine become hp fun w e hlaid hpos => (hn ▸ hlaid).toNode (hlaid.bounds hq ?_ hstop)
  exact fun t ht => (hpos t ht).trans hstart.symm

theorem joined {a : α} {q : Piece} {s : Span} {qs : List Piece} (hQ : Q a [.node sp n] i)
    (hn : n.pieces = ps) (hstart : sp.start = pos) (hps : ps = qs ++ [q]) (hq : q.span? = some s)
    (hstop : sp.stop = s.stop) : Lays options fuel (Pure.pure a) pos ps i Q :=
  gather (pure hQ) hn hstart hps hq hstop

/-- The row becomes a node that ends with the token passed last. -/
theorem spanned {g : Span → α} {n : Span → Node} {start : Span}
    (hQ : ∀ sp, Q (g sp) [.node sp (n sp)] i) (hstart : start.start = pos)
    (hn : ∀ sp, (n sp).pieces = ps ∧ ps.any Piece.isSolid) :
    Lays options fuel (spanFrom start >>= fun sp => Pure.pure (g sp)) pos ps i Q := by
  rintro base s a t ⟨⟨w, e, hpassed, hlaid, hpos⟩, hahead, hbeyond⟩ ⟨⟩
  have hw := hlaid.ne_nil (hn start).2
  have hlast : s.cursor.spanFrom start = start.to (w.getLast hw).span := by
    simp [Cursor.spanFrom, Cursor.previous?, hbeyond, hpassed, List.head?_append,
      List.getLast?_eq_some_getLast hw]
  obtain ⟨t, w, rfl⟩ := List.exists_cons_of_ne_nil hw
  have hbounds : (s.cursor.spanFrom start).Bounds (t :: w) e := by
    rw [hlast]
    exact ⟨⟨t, rfl, hstart.trans (hpos t rfl).symm⟩,
      ⟨_, List.getLast?_eq_some_getLast hw, .inl rfl⟩⟩
  obtain ⟨e', hnode⟩ := ((hn (s.cursor.spanFrom start)).1 ▸ hlaid).toNode hbounds
  exact ⟨_, i, ⟨⟨_, e', hpassed, hnode, hpos⟩, hahead, hbeyond⟩, hQ _⟩

end Lays

namespace Spells

variable {p : Phrase α} {pieces : α → List Piece} {k : TokenKind}

theorem lays (hp : p.Spells options fuel pieces) :
    p.Lays options fuel pos ps i fun a qs _ => qs = ps ++ pieces a := by
  refine (Lays.behind fun pos => hp pos i).mono ?_
  rintro a - j ⟨-, rfl, rfl⟩
  rfl

theorem withStructLiterals {allowed : Bool} (hp : p.Spells options fuel pieces) :
    (withStructLiterals allowed p).Spells options fuel pieces :=
  fun pos i => .withStructLiterals (hp pos i)

theorem expectOneOf {ks : List TokenKind} {expected : String} :
    (expectOneOf ks expected).Spells options fuel fun t => [token t] := by
  intro pos i
  rw [← bind_pure (Phrase.expectOneOf ks expected)]
  exact .expectOneOf fun t j _ => .pure rfl

theorem expect : (expect k).Spells options fuel fun t => [token t] := by
  intro pos i
  rw [← bind_pure (Phrase.expect k)]
  exact .expectToken fun t j _ _ => .pure rfl

theorem untilKind (hp : p.Spells options fuel pieces) :
    (untilKind k p).Spells options fuel fun as => as.flatMap pieces := by
  intro pos i
  refine Lays.repeated (I := fun ps _ as qs _ => qs = ps ++ as.flatMap pieces) (by simp) fun ps i =>
    .kind (.ite (fun _ => .pure (by simp)) fun _ => .map ?_)
  refine hp.lays.bind fun a qs j hqs => .pure ?_
  rintro as rs - rfl
  simp [hqs]

theorem eachAfter (hp : p.Spells options fuel pieces) :
    (eachAfter k p).Spells options fuel fun as => as.flatMap fun a => mark k :: pieces a := by
  intro pos i
  refine Lays.repeated
    (I := fun ps _ as qs _ => qs = ps ++ as.flatMap fun a => mark k :: pieces a) (by simp)
    fun ps i => ?_
  refine .ifEat (fun j => .map (hp.lays.bind fun a qs j hqs => .pure ?_)) fun _ => .pure (by simp)
  rintro as rs - rfl
  simp [hqs]

/-- Elements after a first one. The comma after the last may be there. -/
theorem afterFirst (hp : p.Spells options fuel pieces) :
    (afterFirst k p).Spells options fuel fun as => more (as.map pieces) := by
  intro pos i
  let row (as : List α) := (as.map pieces).flatMap (mark .comma :: ·)
  refine Lays.turn (Lays.repeated (I := fun ps _ as qs _ =>
    qs = ps ++ row as ∨ qs = ps ++ row as ++ [maybe .comma]) (by simp [row]) fun ps i => ?_) ?_
  · refine .ifEat (fun j => .kind (.ite (fun _ => ?_) fun _ => ?_)) fun _ => .pure (by simp [row])
    · refine Lays.become (.pure (.inr ?_)) fun w e h _ => ⟨_, h.maybe_of_mark⟩
      simp [row]
    · refine .map (hp.lays.bind fun a qs j hqs => .pure ?_)
      subst hqs
      rintro as rs - (rfl | rfl) <;> simp [row]
  · rintro as qs j (rfl | rfl)
    · exact Lays.become (.pure rfl) fun w e h _ => ⟨_, h.skip .comma⟩
    · exact .pure rfl

theorem commaList (hp : p.Spells options fuel pieces) :
    (commaList k p).Spells options fuel fun as => Piece.list (as.map pieces) := by
  intro pos i
  refine .kind (.ite (fun _ => .pure rfl) fun _ => .spelled hp fun a j => ?_)
  refine hp.afterFirst.lays.bind fun as qs j hqs => .pure ?_
  simpa [Piece.list] using hqs

theorem after? (hp : p.Spells options fuel fun a => [piece a]) :
    (after? k p).Spells options fuel fun a => Piece.after k (a.map piece) := by
  intro pos i
  refine .ifEat (fun j => .map ?_) fun _ => .pure rfl
  exact .spelled hp fun a j => .pure rfl

/-- A node around another one covers the same text. -/
theorem wrap {f : α → β} {sp : α → Span} {m n : α → Node} {pieces : β → List Piece}
    (hp : p.Spells options fuel fun a => [.node (sp a) (m a)])
    (hm : ∀ a t, m a ≠ .ty t)
    (hn : ∀ a, (n a).pieces = [.node (sp a) (m a)])
    (hpieces : ∀ a, pieces (f a) = [.node (sp a) (n a)]) :
    (f <$> p).Spells options fuel pieces := by
  intro pos i
  refine .map (.spelled hp fun a j => ?_)
  refine .opening rfl (hm a) fun hstart => ?_
  exact .joined (hpieces a).symm (hn a) hstart rfl rfl rfl

/-- A node that is one token. -/
theorem alone {f : Token → β} {n : Token → Node} {pieces : β → List Piece}
    (hn : ∀ t, (n t).pieces = [token t])
    (hpieces : ∀ t, pieces (f t) = [.node t.span (n t)]) :
    (f <$> take).Spells options fuel pieces := fun _ _ =>
  .map (.takeToken fun t _ _ hpos => .joined (hpieces t).symm (hn t) (hpos rfl) rfl rfl rfl)

/-- One or two layers of reference. -/
theorem referenceLayers {layer : Bool → α → Span → α} {spanOf : α → Span} {node : α → Node}
    (hp : p.Spells options fuel fun a => [.node (spanOf a) (node a)])
    (hspan : ∀ m a sp, spanOf (layer m a sp) = sp) (hnode : ∀ a, (node a).span? = some (spanOf a))
    (hpieces : ∀ m a sp, (node (layer m a sp)).pieces =
      mark .ampersand :: Piece.flag .kwMut m ++ [.node (spanOf a) (node a)])
    (hi : kindAt i 0 = .ampersand ∨ kindAt i 0 = .andAnd) :
    Lays options fuel (referenceLayers layer spanOf p) pos [] i fun a ps _ =>
      ps = [.node (spanOf a) (node a)] := by
  obtain hi | hi := hi <;>
    refine .takeMark hi fun t _ ht hpos => .flag fun m _ => .spelled hp fun a _ => ?_
  all_goals simp only [ht, reduceCtorEq, if_false, if_true]
  · refine .joined rfl (hpieces m a _) ?_ rfl rfl ?_
    · rw [hspan]
      exact hpos rfl
    · rw [hspan]
      rfl
  · refine .become (.pure rfl) fun w e hlaid hstart => ?_
    have hbounds : (t.span.to (spanOf a)).Bounds w e :=
      hlaid.bounds rfl (fun u hu => (hstart u hu).trans (hpos rfl).symm) rfl
    rw [hspan]
    refine ⟨_, Laid.nil.layers ?_ (hpieces m a (t.span.to (spanOf a))) ?_ hlaid hbounds⟩
    · rw [hpieces, hspan]
      rfl
    · rw [hnode, hspan]

end Spells

end Phrase

end FrontEnd
