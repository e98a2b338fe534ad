import FrontEnd.Proofs.Tree.Piece
/-!
# Where nodes lie

Pieces lie on the tokens that they are read from, side by side in their order, and a node lies where
its pieces do. It begins where its first token begins and ends where its last token does, with one
exception: a type in parentheses ends before the one that closes it, and so may what ends in it.

The tokens of a source follow each other, so the spans of pieces do, and they lie in the span of the
node that they make up.
-/
namespace FrontEnd

open Piece (mark maybe token)

instance : LE Position := ⟨fun p q => p.file = q.file ∧ p.offset ≤ q.offset⟩

namespace Position

variable {p q r : Position}

theorem le_refl (p : Position) : p ≤ p := ⟨rfl, UInt32.le_refl _⟩

theorem le_trans (h : p ≤ q) (h' : q ≤ r) : p ≤ r := ⟨h.1.trans h'.1, UInt32.le_trans h.2 h'.2⟩

end Position

/-- The span begins with the first of some tokens. It ends with the last of them, or else, if that
is a parenthesis, perhaps at another place. -/
structure Span.Bounds (sp : Span) (tokens : List Token) (early : Option Position) : Prop where
  start : ∃ t ∈ tokens.head?, sp.start = t.span.start
  stop : ∃ t ∈ tokens.getLast?, sp.stop = t.span.stop ∨ t.kind = .closeParen ∧ early = some sp.stop

/-- `Laid pieces tokens early`: the pieces lie on the tokens. If the last of the tokens closes a
type in parentheses, then `early` is where the last piece ends instead. -/
inductive Laid : List Piece → List Token → Option Position → Prop
  | nil : Laid [] [] none
  | mark {ps : List Piece} {w : List Token} {e : Option Position} (h : Laid ps w e) (t : Token) :
    Laid (ps ++ [mark t.kind]) (w ++ [t]) none
  | token {ps : List Piece} {w : List Token} {e : Option Position} (h : Laid ps w e) (t : Token) :
    Laid (ps ++ [token t]) (w ++ [t]) none
  | skip {ps : List Piece} {w : List Token} {e : Option Position} (h : Laid ps w e) (k : TokenKind) :
    Laid (ps ++ [maybe k]) w e
  | maybe {ps : List Piece} {w : List Token} {e : Option Position} (h : Laid ps w e) (t : Token) :
    Laid (ps ++ [maybe t.kind]) (w ++ [t]) none
  /-- A node that begins and ends with its pieces. -/
  | node {ps : List Piece} {w v : List Token} {e e' : Option Position} {sp : Span} {n : Node}
    (h : Laid ps w e) (hn : Laid n.pieces v e') (hsp : sp.Bounds v e') :
    Laid (ps ++ [.node sp n]) (w ++ v) (e'.map fun _ => sp.stop)
  /-- Two layers of reference written as one token. Both cover the same text. -/
  | layers {ps qs : List Piece} {w v : List Token} {e e' : Option Position} {sp : Span}
    {outer inner : Node} (h : Laid ps w e)
    (houter : outer.pieces = [.mark .ampersand, .node sp inner])
    (hinner : inner.pieces = .mark .ampersand :: qs) (hspan : inner.span? = some sp)
    (hn : Laid (.mark .andAnd :: qs) v e') (hsp : sp.Bounds v e') :
    Laid (ps ++ [.node sp outer]) (w ++ v) (e'.map fun _ => sp.stop)
  /-- A type in parentheses. -/
  | parens {ps : List Piece} {w v : List Token} {e e' : Option Position} {a : Ty}
    (h : Laid ps w e) (ha : Laid [.mark .openParen, .ty a, .mark .closeParen] v e') :
    Laid (ps ++ [.ty a]) (w ++ v) (some a.span.stop)

namespace Laid

variable {ps qs : List Piece} {v w : List Token} {e e' : Option Position} {sp : Span} {n : Node}

/-- Pieces beside each other. -/
theorem append (h : Laid ps w e) (h' : Laid qs v e') : ∃ e'', Laid (ps ++ qs) (w ++ v) e'' := by
  induction h' with
  | nil => exact ⟨e, by simpa using h⟩
  | mark _ t ih =>
    obtain ⟨_, ih⟩ := ih
    exact ⟨_, by simpa only [List.append_assoc] using ih.mark t⟩
  | token _ t ih =>
    obtain ⟨_, ih⟩ := ih
    exact ⟨_, by simpa only [List.append_assoc] using ih.token t⟩
  | skip _ k ih =>
    obtain ⟨_, ih⟩ := ih
    exact ⟨_, by simpa only [List.append_assoc] using ih.skip k⟩
  | maybe _ t ih =>
    obtain ⟨_, ih⟩ := ih
    exact ⟨_, by simpa only [List.append_assoc] using ih.maybe t⟩
  | node _ hn hsp ih _ =>
    obtain ⟨_, ih⟩ := ih
    exact ⟨_, by simpa only [List.append_assoc] using ih.node hn hsp⟩
  | layers _ ho hi hs hn hsp ih _ =>
    obtain ⟨_, ih⟩ := ih
    exact ⟨_, by simpa only [List.append_assoc] using ih.layers ho hi hs hn hsp⟩
  | parens _ ha ih _ =>
    obtain ⟨_, ih⟩ := ih
    exact ⟨_, by simpa only [List.append_assoc] using ih.parens ha⟩

/-- A mark at the end is the last token. -/
theorem last_mark (ps : List Piece) {k : TokenKind} (h : Laid (ps ++ [.mark k]) w e) :
    ∃ t ∈ w.getLast?, t.kind = k := by
  generalize hqs : ps ++ [Piece.mark k] = qs at h
  cases h with
  | nil => simp at hqs
  | mark h t =>
    obtain ⟨-, ⟨⟩⟩ := List.append_singleton_inj.mp hqs
    exact ⟨t, by simp, rfl⟩
  | _ => exact nomatch (List.append_singleton_inj.mp hqs).2

/-- Only where the last token is a parenthesis can the last piece end early. -/
theorem last_paren {q : Position} (h : Laid ps w e) (he : e = some q) :
    ∃ t ∈ w.getLast?, t.kind = .closeParen := by
  have later {w v : List Token} (h : ∃ t ∈ v.getLast?, t.kind = .closeParen) :
      ∃ t ∈ (w ++ v).getLast?, t.kind = .closeParen := by
    obtain ⟨t, ht, hk⟩ := h
    exact ⟨t, by simp [List.getLast?_append, Option.mem_def.mp ht], hk⟩
  induction h generalizing q with
  | nil | mark | token | maybe => cases he
  | skip _ _ ih => exact ih he
  | node _ _ _ _ ih | layers _ _ _ _ _ _ _ ih =>
    obtain ⟨p, hp, -⟩ := Option.map_eq_some_iff.mp he
    exact later (ih hp)
  | parens _ ha => exact later (last_mark [_, _] ha)

/-- A piece at the end ends with the last token, or early. -/
theorem ends {p : Piece} (h : Laid (ps ++ [p]) w e) (hp : p.span? = some sp) :
    ∃ t ∈ w.getLast?, sp.stop = t.span.stop ∨ t.kind = .closeParen ∧ e = some sp.stop := by
  have early {q : Position} (h : Laid (ps ++ [p]) w (some q)) :
      ∃ t ∈ w.getLast?, q = t.span.stop ∨ t.kind = .closeParen ∧ some q = some q := by
    obtain ⟨t, ht, hk⟩ := h.last_paren rfl
    exact ⟨t, ht, .inr ⟨hk, rfl⟩⟩
  generalize hqs : ps ++ [p] = qs at h early
  cases h with
  | nil => simp at hqs
  | mark _ t | skip _ t | maybe _ t =>
    obtain ⟨-, rfl⟩ := List.append_singleton_inj.mp hqs
    cases hp
  | token _ t =>
    obtain ⟨-, rfl⟩ := List.append_singleton_inj.mp hqs
    cases hp
    exact ⟨t, by simp, .inl rfl⟩
  | node h hn hsp | layers h _ _ _ hn hsp =>
    obtain ⟨-, rfl⟩ := List.append_singleton_inj.mp hqs
    cases hp
    obtain ⟨t, ht, hstop | ⟨hk, rfl⟩⟩ := hsp.stop
    · exact ⟨t, by simp [List.getLast?_append, Option.mem_def.mp ht], .inl hstop⟩
    · exact ⟨t, by simp [List.getLast?_append, Option.mem_def.mp ht], .inr ⟨hk, rfl⟩⟩
  | parens h ha =>
    obtain ⟨-, rfl⟩ := List.append_singleton_inj.mp hqs
    cases hp
    exact early (h.parens ha)

theorem eq_nil (h : Laid [] w e) : w = [] := by
  generalize hqs : [] = qs at h
  cases h with
  | nil => rfl
  | _ => simp at hqs

/-- The first of some pieces is the last one laid, or stands among those before it. -/
theorem head_append {p q : Piece} (h : Laid ps w e) (hq : (ps ++ [p]).head? = some q) :
    (w = [] ∧ p = q) ∨ ps.head? = some q := by
  cases ps with
  | nil => exact .inl ⟨h.eq_nil, Option.some.inj hq⟩
  | cons => exact .inr hq

/-- A node that is no type begins with its first token. -/
theorem starts (h : Laid ps w e) (hps : ps.head? = some (.node sp n)) (hn : ∀ a, n ≠ .ty a) :
    ∃ t ∈ w.head?, sp.start = t.span.start := by
  have later {w v : List Token} (h : ∃ t ∈ w.head?, sp.start = t.span.start) :
      ∃ t ∈ (w ++ v).head?, sp.start = t.span.start := by
    obtain ⟨t, ht, hstart⟩ := h
    exact ⟨t, by simp [List.head?_append, Option.mem_def.mp ht], hstart⟩
  induction h with
  | nil => cases hps
  | mark h t ih | token h t ih | maybe h t ih =>
    obtain ⟨-, ⟨⟩⟩ | hps := h.head_append hps
    exact later (ih hps)
  | skip h k ih =>
    obtain ⟨-, ⟨⟩⟩ | hps := h.head_append hps
    exact ih hps
  | node h _ hsp ih | layers h _ _ _ _ hsp ih =>
    obtain ⟨rfl, ⟨⟩⟩ | hps := h.head_append hps
    · exact hsp.start
    · exact later (ih hps)
  | parens h _ ih =>
    obtain ⟨-, ⟨⟩⟩ | hps := h.head_append hps
    · exact absurd rfl (hn _)
    · exact later (ih hps)

/-- Only pieces that may be left out can lie on no token. -/
theorem ne_nil (h : Laid ps w e) (hps : ps.any Piece.isSolid) : w ≠ [] := by
  induction h with
  | nil => cases hps
  | mark | token | maybe => simp
  | skip h k ih => exact ih (by simpa using hps)
  | node _ _ hsp | layers _ _ _ _ _ hsp =>
    obtain ⟨t, ht, -⟩ := hsp.start
    intro h
    simp [(List.append_eq_nil_iff.mp h).2] at ht
  | parens _ ha _ ih => exact fun h => ih rfl (List.append_eq_nil_iff.mp h).2

/-- The span from the first token to the end of the last piece. -/
theorem bounds {s : Span} {p : Piece} (h : Laid (ps ++ [p]) w e) (hp : p.span? = some s)
    (hstart : ∀ t ∈ w.head?, t.span.start = sp.start) (hstop : sp.stop = s.stop) :
    sp.Bounds w e := by
  have hsolid : p.isSolid := by cases p <;> first | rfl | cases hp
  have hw := h.ne_nil (by simp [hsolid])
  obtain ⟨t, w, rfl⟩ := List.exists_cons_of_ne_nil hw
  exact ⟨⟨t, rfl, (hstart t rfl).symm⟩, hstop ▸ h.ends hp⟩

/-- A mark may stand where it may be left out. -/
theorem maybe_of_mark {k : TokenKind} (h : Laid (ps ++ [.mark k]) w e) :
    Laid (ps ++ [.maybe k]) w none := by
  generalize hqs : ps ++ [Piece.mark k] = qs at h
  cases h with
  | nil => simp at hqs
  | mark h t =>
    obtain ⟨rfl, ⟨⟩⟩ := List.append_singleton_inj.mp hqs
    exact h.maybe t
  | _ => exact nomatch (List.append_singleton_inj.mp hqs).2

/-- A token that is kept may also be taken for a mark. -/
theorem mark_of_token {t : Token} (h : Laid (ps ++ [.token t]) w e) :
    Laid (ps ++ [.mark t.kind]) w e := by
  generalize hqs : ps ++ [Piece.token t] = qs at h
  cases h with
  | nil => simp at hqs
  | token h t =>
    obtain ⟨rfl, ⟨⟩⟩ := List.append_singleton_inj.mp hqs
    exact h.mark _
  | _ => exact nomatch (List.append_singleton_inj.mp hqs).2

/-- A node with the pieces that have been read. -/
theorem toNode (h : Laid n.pieces w e) (hsp : sp.Bounds w e) : ∃ e', Laid [.node sp n] w e' :=
  ⟨_, nil.node h hsp⟩

end Laid

/-- Tokens that follow each other. -/
structure Token.InOrder (tokens : List Token) : Prop where
  start_le : ∀ t ∈ tokens, t.span.start ≤ t.span.stop
  increasing : tokens.Pairwise fun t u => t.span.stop ≤ u.span.start

namespace Token.InOrder

variable {v w : List Token} {t : Token}

theorem left (h : InOrder (w ++ v)) : InOrder w :=
  ⟨fun t ht => h.start_le t (List.mem_append_left _ ht), (List.pairwise_append.mp h.increasing).1⟩

theorem right (h : InOrder (w ++ v)) : InOrder v :=
  ⟨fun t ht => h.start_le t (List.mem_append_right _ ht), (List.pairwise_append.mp h.increasing).2.1⟩

theorem between (h : InOrder (w ++ v)) : ∀ t ∈ w, ∀ u ∈ v, t.span.stop ≤ u.span.start :=
  (List.pairwise_append.mp h.increasing).2.2

theorem head_le (h : InOrder w) (ht : t ∈ w.head?) : ∀ u ∈ w, t.span.start ≤ u.span.start := by
  intro u hu
  obtain ⟨w, rfl⟩ : ∃ v, w = t :: v := by cases w <;> simp_all
  obtain rfl | hu := List.mem_cons.mp hu
  · exact Position.le_refl _
  · have hbetween := h.between (w := [t]) t (by simp) u hu
    exact Position.le_trans (h.start_le t (List.mem_cons_self ..)) hbetween

theorem le_last (h : InOrder w) (ht : t ∈ w.getLast?) : ∀ u ∈ w, u.span.stop ≤ t.span.stop := by
  intro u hu
  obtain ⟨v, rfl⟩ := List.getLast?_eq_some_iff.mp ht
  obtain hu | hu := List.mem_append.mp hu
  · exact Position.le_trans (h.between u hu t (by simp)) (h.start_le t (by simp))
  · obtain rfl := List.mem_singleton.mp hu
    exact Position.le_refl _

end Token.InOrder

/-- A span that begins and ends with tokens among those given. -/
structure Span.On (s : Span) (tokens : List Token) : Prop where
  start : ∃ t ∈ tokens, s.start = t.span.start
  stop : ∃ t ∈ tokens, s.stop = t.span.stop
  le : s.start ≤ s.stop

/-- Spans that follow each other inside a span. -/
structure Span.Holds (sp : Span) (spans : List Span) : Prop where
  le : sp.start ≤ sp.stop
  inside : ∀ s ∈ spans, sp.start ≤ s.start ∧ s.stop ≤ sp.stop
  increasing : spans.Pairwise fun s t => s.stop ≤ t.start

/-- What is known of the spans of pieces on tokens. -/
structure Arranged (spans : List Span) (tokens : List Token) (early : Option Position) : Prop where
  on : ∀ s ∈ spans, s.On tokens
  increasing : spans.Pairwise fun s t => s.stop ≤ t.start
  early : ∀ q, early = some q → (∃ s ∈ spans, s.stop = q) ∧ ∀ s ∈ spans, s.stop ≤ q

namespace Arranged

variable {spans : List Span} {v w : List Token} {e : Option Position} {s sp : Span}

theorem mono (h : s.On w) (hw : w ⊆ v) : s.On v := by
  obtain ⟨⟨t, ht, hstart⟩, ⟨u, hu, hstop⟩, hle⟩ := h
  exact ⟨⟨t, hw ht, hstart⟩, ⟨u, hw hu, hstop⟩, hle⟩

/-- More tokens, on which no piece with a span lies. -/
theorem widen (h : Arranged spans w e) : Arranged spans (w ++ v) none :=
  ⟨fun s hs => mono (h.on s hs) (List.subset_append_left _ _), h.increasing, nofun⟩

/-- One more span, on the tokens after those before. -/
theorem snoc (h : Arranged spans w e) (hs : s.On v) (hw : Token.InOrder (w ++ v))
    (e' : Option Position) (he' : ∀ q, e' = some q → s.stop = q) :
    Arranged (spans ++ [s]) (w ++ v) e' := by
  have hbefore : ∀ r ∈ spans, r.stop ≤ s.start := by
    intro r hr
    obtain ⟨t, ht, hstop⟩ := (h.on r hr).stop
    obtain ⟨u, hu, hstart⟩ := hs.start
    exact hstop ▸ hstart ▸ hw.between t ht u hu
  have hincreasing := List.pairwise_append.mpr ⟨h.increasing, List.pairwise_singleton _ s,
    fun r hr t ht => List.mem_singleton.mp ht ▸ hbefore r hr⟩
  refine ⟨fun r hr => ?_, hincreasing, fun q hq => ⟨⟨s, by simp, he' q hq⟩, fun r hr => ?_⟩⟩
  · obtain hr | hr := List.mem_append.mp hr
    · exact mono (h.on r hr) (List.subset_append_left _ _)
    · obtain rfl := List.mem_singleton.mp hr
      exact mono hs (List.subset_append_right _ _)
  · obtain rfl := he' q hq
    obtain hr | hr := List.mem_append.mp hr
    · exact Position.le_trans (hbefore r hr) hs.le
    · obtain rfl := List.mem_singleton.mp hr
      exact Position.le_refl _

/-- A span that begins and ends with the tokens lies on them. -/
theorem bounds_on (h : Arranged spans w e) (hw : Token.InOrder w) (hsp : sp.Bounds w e) :
    sp.On w := by
  obtain ⟨t, ht, hstart⟩ := hsp.start
  have hmem : t ∈ w := List.mem_of_mem_head? ht
  obtain ⟨u, hu, hstop | ⟨-, rfl⟩⟩ := hsp.stop
  · have hmem' := List.mem_of_mem_getLast? hu
    refine ⟨⟨t, hmem, hstart⟩, ⟨u, hmem', hstop⟩, ?_⟩
    rw [hstart, hstop]
    exact Position.le_trans (hw.start_le t hmem) (hw.le_last hu t hmem)
  · obtain ⟨s, hs, hstop⟩ := (h.early _ rfl).1
    obtain ⟨u, hu, hs'⟩ := (h.on s hs).stop
    obtain ⟨u', hu', hs''⟩ := (h.on s hs).start
    refine ⟨⟨t, hmem, hstart⟩, ⟨u, hu, hstop ▸ hs'⟩, ?_⟩
    rw [hstart, ← hstop]
    exact Position.le_trans (hw.head_le ht u' hu') (hs'' ▸ (h.on s hs).le)

/-- The spans of pieces lie in the span of the node that they make up. -/
theorem holds (h : Arranged spans w e) (hw : Token.InOrder w) (hsp : sp.Bounds w e) :
    sp.Holds spans := by
  refine ⟨(h.bounds_on hw hsp).le, fun s hs => ⟨?_, ?_⟩, h.increasing⟩
  · obtain ⟨t, ht, hstart⟩ := hsp.start
    obtain ⟨u, hu, hs'⟩ := (h.on s hs).start
    exact hstart ▸ hs' ▸ hw.head_le ht u hu
  · obtain ⟨t, ht, hstop | ⟨-, rfl⟩⟩ := hsp.stop
    · obtain ⟨u, hu, hs'⟩ := (h.on s hs).stop
      exact hstop ▸ hs' ▸ hw.le_last ht u hu
    · exact (h.early _ rfl).2 s hs

end Arranged

theorem Laid.arranged {ps : List Piece} {w : List Token} {e : Option Position} (h : Laid ps w e)
    (hw : Token.InOrder w) : Arranged (Piece.spans ps) w e := by
  induction h with
  | nil => exact ⟨nofun, .nil, nofun⟩
  | mark h t ih | maybe h t ih => simpa using (ih hw.left).widen
  | skip h k ih => simpa using ih hw
  | token h t ih =>
    have hon : t.span.On [t] := ⟨⟨t, by simp, rfl⟩, ⟨t, by simp, rfl⟩, hw.start_le t (by simp)⟩
    simpa using (ih hw.left).snoc hon hw none nofun
  | node _ _ hsp ih ihn | layers _ _ _ _ _ hsp ih ihn =>
    have hon := (ihn hw.right).bounds_on hw.right hsp
    simpa using (ih hw.left).snoc hon hw (Option.map _ _) (by simp)
  | parens _ _ ih iha =>
    have hon := (iha hw.right).on _ (List.mem_singleton.mpr rfl)
    simpa [Piece.ty] using (ih hw.left).snoc hon hw (some _) (by simp)

/-- The pieces that a node with a span is read from: its own, or, if it is one of two layers of
reference written as one token, those of the inner layer with that token for its mark. -/
inductive Node.ReadFrom (sp : Span) (n : Node) : List Piece → Prop
  | own : ReadFrom sp n n.pieces
  | inner {ps : List Piece} (h : n.pieces = mark .ampersand :: ps) :
    ReadFrom sp n (mark .andAnd :: ps)
  | outer {inner : Node} {ps : List Piece} (h : n.pieces = [mark .ampersand, .node sp inner])
    (hinner : inner.pieces = mark .ampersand :: ps) : ReadFrom sp n (mark .andAnd :: ps)

/-- Some of the tokens, side by side, are those that a node is read from. It begins and ends with
them. -/
def Node.LiesOn (n : Node) (sp : Span) (tokens : List Token) : Prop :=
  ∃ before w after ps early, tokens = before ++ w ++ after ∧ n.ReadFrom sp ps ∧ Laid ps w early ∧
    sp.Bounds w early

/-- A node that has a span lies on some of the tokens, and the texts of its pieces follow each other
inside its own. -/
def Node.Placed (n : Node) (tokens : List Token) : Prop :=
  ∀ sp, n.span? = some sp → n.LiesOn sp tokens ∧ sp.Holds (Piece.spans n.pieces)

namespace Node

variable {tokens v w : List Token} {c m n : Node} {ps : List Piece} {e : Option Position}
  {sp : Span}

theorem Placed.append_left (h : n.Placed v) : n.Placed (w ++ v) := by
  intro sp hsp
  obtain ⟨⟨before, u, after, ps, e, rfl, hlaid⟩, hholds⟩ := h sp hsp
  exact ⟨⟨w ++ before, u, after, ps, e, by simp, hlaid⟩, hholds⟩

theorem Placed.append_right (h : n.Placed w) : n.Placed (w ++ v) := by
  intro sp hsp
  obtain ⟨⟨before, u, after, ps, e, rfl, hlaid⟩, hholds⟩ := h sp hsp
  exact ⟨⟨before, u, after ++ v, ps, e, by simp, hlaid⟩, hholds⟩

/-- All nodes with a span among some pieces are placed, and all nodes in them. -/
def AllPlaced (ps : List Piece) (tokens : List Token) : Prop :=
  ∀ sp n, .node sp n ∈ ps → n.span? = some sp → ∀ m : Node, m.Within n → m.Placed tokens

/-- What is inside a node is the node itself or inside one of its pieces. -/
theorem Within.placed (hm : m.Within c) (hc : c.pieces ⊆ ps) (hps : AllPlaced ps tokens) :
    m = c ∨ m.Placed tokens := by
  induction hm with
  | self => exact .inl rfl
  | @inChild c n hchild h ih =>
    cases hs : c.span? with
    | some sp => exact .inr (hps sp c (hc (mem_pieces hchild hs)) hs m h)
    | none =>
      obtain rfl | hm := ih (fun p hp => hc (pieces_subset hchild hs hp))
      · exact .inr fun sp hsp => by simp [hs] at hsp
      · exact .inr hm

theorem AllPlaced.append {qs : List Piece} (h : AllPlaced ps w) (h' : AllPlaced qs v) :
    AllPlaced (ps ++ qs) (w ++ v) := by
  intro sp n hn hs m hm
  obtain hn | hn := List.mem_append.mp hn
  · exact (h sp n hn hs m hm).append_right
  · exact (h' sp n hn hs m hm).append_left

end Node

namespace Laid

variable {ps : List Piece} {w : List Token} {e : Option Position} {sp : Span} {n : Node}

/-- A node is placed on the tokens that it is read from. -/
theorem placed (h : Laid ps w e) (hw : Token.InOrder w) (hsp : sp.Bounds w e)
    (hn : n.span? = some sp) (hps : n.ReadFrom sp ps) : n.Placed w := by
  intro sp' hs
  cases hn.symm.trans hs
  have harranged := h.arranged hw
  refine ⟨⟨[], w, [], ps, e, by simp, hps, h, hsp⟩, ?_⟩
  cases hps with
  | own => exact harranged.holds hw hsp
  | inner hn => simpa [hn] using harranged.holds hw hsp
  | outer hn =>
    have hle := (harranged.bounds_on hw hsp).le
    refine ⟨hle, ?_, ?_⟩ <;> simp [hn, Position.le_refl]

/-- All nodes in pieces on tokens that follow each other are placed. -/
theorem allPlaced (h : Laid ps w e) (hw : Token.InOrder w) : Node.AllPlaced ps w := by
  have other {w : List Token} {p : Piece} (hp : ∀ sp n, .node sp n ≠ p) : Node.AllPlaced [p] w :=
    fun sp n hn => absurd (List.mem_singleton.mp hn) (hp sp n)
  induction h with
  | nil => exact nofun
  | mark h t ih | token h t ih | maybe h t ih => exact (ih hw.left).append (other (by simp))
  | skip h k ih => simpa using (ih hw).append (v := []) (other (by simp))
  | @node ps w v e e' sp n h hn hsp ih ihn =>
    refine (ih hw.left).append fun sp' n' hn' hs m hm => ?_
    obtain ⟨rfl, rfl⟩ := Piece.node.inj (List.mem_singleton.mp hn')
    obtain rfl | hm := hm.placed (List.Subset.refl _) (ihn hw.right)
    · exact hn.placed hw.right hsp hs .own
    · exact hm
  | @layers ps qs w v e e' sp outer inner h houter hinner hspan hn hsp ih ihn =>
    have hqs : Node.AllPlaced inner.pieces v := by
      intro sp' n' hn'
      rw [hinner] at hn'
      exact ihn hw.right sp' n' (by simpa using hn')
    have hinnerPlaced : ∀ m : Node, m.Within inner → m.Placed v := by
      intro m hm
      obtain rfl | hm := hm.placed (List.Subset.refl _) hqs
      · exact hn.placed hw.right hsp hspan (.inner hinner)
      · exact hm
    have houterPlaced : Node.AllPlaced outer.pieces v := by
      intro sp' n' hn' _
      rw [houter] at hn'
      obtain ⟨-, rfl⟩ : sp' = sp ∧ n' = inner := by simpa using hn'
      exact hinnerPlaced
    refine (ih hw.left).append fun sp' n' hn' hs m hm => ?_
    obtain ⟨rfl, rfl⟩ := Piece.node.inj (List.mem_singleton.mp hn')
    obtain rfl | hm := hm.placed (List.Subset.refl _) houterPlaced
    · exact hn.placed hw.right hsp hs (.outer houter hinner)
    · exact hm
  | parens h ha ih iha =>
    refine (ih hw.left).append fun sp' n' hn' => ?_
    exact iha hw.right sp' n' (List.mem_cons_of_mem _ (List.mem_append_left _ hn'))

end Laid

end FrontEnd
