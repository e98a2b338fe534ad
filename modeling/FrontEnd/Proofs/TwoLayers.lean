import FrontEnd.Proofs.DeeperStart
import FrontEnd.Proofs.Placeless
import FrontEnd.Proofs.ReadBack
import FrontEnd.Proofs.TokensKept
/-!
# One mark for two layers

Where a reference begins, `&&` reads like `&` `&`: in expressions, in types and in patterns. One
mark is a case of its own in a rule, two marks are a rule inside the rule, and take one level more.
So the readings of what follows start at different depths, and go the same way until one of them has
no level left (`Twin`).
-/
namespace FrontEnd

open Phrase Grammar

variable {α β γ : Type} {options : ParseOptions} {limit k n n' : Nat}

/-- Two states that differ at most in the tokens passed and in what reading does not ask of the
names. -/
structure ParseState.Twins (s s' : ParseState) : Prop where
  resembles : s.Resembles s'
  ahead_eq : s.cursor.ahead = s'.cursor.ahead

/-- How two runs end, the second some levels deeper: it fails for want of a level, or both yield
values that are related and stop at twin states, or both fail with the same cause. -/
inductive Twin (limit k : Nat) (R : α → β → Prop) :
    EStateM.Result SyntaxError ParseState α → EStateM.Result SyntaxError ParseState β → Prop
  | deep {r : EStateM.Result SyntaxError ParseState α} {place : Position} {t : ParseState} :
    Twin limit k R r (.error ⟨.nestingTooDeep limit, place⟩ t)
  | ok {a : α} {a' : β} {t t' : ParseState} (h : R a a') (ht : t.Twins t') :
    Twin limit k R (.ok a t) (.ok a' (t'.sink k))
  | error {e e' : SyntaxError} {t t' : ParseState} (h : e.cause = e'.cause) :
    Twin limit k R (.error e t) (.error e' t')

namespace Twin

variable {R : α → β → Prop} {s s' : ParseState}

theorem bind {γ' : Type} {R' : γ → γ' → Prop} {r : Reader α} {r' : Reader β} {f : α → Reader γ}
    {f' : β → Reader γ'} (h : Twin limit k R (r s) (r' s'))
    (hf : ∀ a a' t t', R a a' → t.Twins t' → r' s' = .ok a' (t'.sink k) →
      Twin limit k R' (f a t) (f' a' (t'.sink k))) :
    Twin limit k R' ((r >>= f) s) ((r' >>= f') s') := by
  generalize hrs : r s = x, hrs' : r' s' = x' at h
  cases h with
  | deep => exact Reader.bind_of_error hrs' ▸ .deep
  | ok h ht =>
    rw [Reader.bind_of_ok hrs, Reader.bind_of_ok hrs']
    exact hf _ _ _ _ h ht hrs'
  | error hc =>
    rw [Reader.bind_of_error hrs, Reader.bind_of_error hrs']
    exact .error hc

/-- The second run goes on without reading anything. -/
theorem bind_right {R' : α → γ → Prop} {r : EStateM.Result SyntaxError ParseState α} {r' : Reader β}
    {f' : β → Reader γ} (h : Twin limit k R r (r' s'))
    (hf : ∀ a a' t', R a a' → r' s' = .ok a' t' → ∃ c, f' a' t' = .ok c t' ∧ R' a c) :
    Twin limit k R' r ((r' >>= f') s') := by
  generalize hrs' : r' s' = x' at h
  cases h with
  | deep => exact Reader.bind_of_error hrs' ▸ .deep
  | ok h ht =>
    obtain ⟨c, hc, hR⟩ := hf _ _ _ h hrs'
    rw [Reader.bind_of_ok hrs', hc]
    exact .ok hR ht
  | error hc => exact Reader.bind_of_error hrs' ▸ .error hc

/-- Two runs of one phrase from twin states, the second deeper and perhaps with less fuel. -/
theorem run [Viewed α] {p : Phrase α} (hp : (Lockstep.placeless options).Locked n p p s s')
    (hs : s.Twins s') (hn : n' ≤ n) :
    Twin options.maxDepth k (View.Alike .bare .bare) (p.run options (Goal.read options n) s)
      (p.run options (Goal.read options n') (s'.sink k)) := by
  rcases p.run_sinks (fun g => g.read_sinks hn) s' with ⟨place, t, h⟩ | h
  · rw [h]
    exact .deep
  · have hends : (Lockstep.placeless options).Ends (p.run options (Goal.read options n) s)
      (p.run options (Goal.read options n) s') := hp hs.resembles
    have hsuffix : (p.run options (Goal.read options n)).Keeps
        fun s t => t.cursor.ahead <:+ s.cursor.ahead :=
      (ahead_suffix_invariant options).run ((ahead_suffix_invariant options).goal n) p
    rw [h]
    match hrs : p.run options (Goal.read options n) s, hrs' : p.run options (Goal.read options n) s' with
    | .ok a t, .ok a' t' =>
      rw [hrs, hrs'] at hends
      obtain ⟨ha, ht⟩ : _ ∧ t.Resembles t' := hends
      have hlength : t.cursor.ahead.length = t'.cursor.ahead.length := by
        simpa using congrArg List.length ht.ahead_eq
      have htail : t.cursor.ahead <:+ s'.cursor.ahead := hs.ahead_eq ▸ hsuffix.of_ok hrs
      have htail' : t'.cursor.ahead <:+ s'.cursor.ahead := hsuffix.of_ok hrs'
      refine .ok ha ⟨ht, ?_⟩
      exact (List.suffix_or_suffix_of_suffix htail htail').elim (·.eq_of_length hlength)
        fun h => (h.eq_of_length hlength.symm).symm
    | .error e t, .error e' t' =>
      rw [hrs, hrs'] at hends
      exact .error hends.1
    | .ok a t, .error e' t' | .error e t, .ok a' t' =>
      rw [hrs, hrs'] at hends
      exact hends.elim

/-- Both runs one level deeper. -/
theorem nested {r : Reader α} {r' : Reader β} (hs : s.depth = s'.depth)
    (h : Twin limit 0 R (r { s with depth := s.depth + 1 }) (r' { s' with depth := s'.depth + 1 })) :
    Twin limit 0 R (Reader.nested limit r s) (Reader.nested limit r' s') := by
  by_cases hdepth : s.depth < limit
  · have hrun : Reader.nested limit r s = Reader.between _ _ r s := if_pos hdepth
    have hrun' : Reader.nested limit r' s' = Reader.between _ _ r' s' :=
      if_pos (hs ▸ hdepth)
    rw [hrun, hrun']
    generalize hrs : r { s with depth := s.depth + 1 } = x,
      hrs' : r' { s' with depth := s'.depth + 1 } = x' at h
    cases h with
    | deep =>
      rw [Reader.between_of_error (r := r') hrs']
      exact .deep
    | @ok a a' t t' h ht =>
      rw [Reader.between_of_ok hrs, Reader.between_of_ok hrs']
      have hleave : ParseState.Twins { t with depth := t.depth - 1 }
          { t' with depth := t'.depth - 1 } :=
        ⟨⟨ht.resembles.ahead_eq, ht.resembles.outline_eq,
          congrArg (· - 1) ht.resembles.depth_eq, ht.resembles.literals_eq⟩, ht.ahead_eq⟩
      exact ok h hleave
    | error hc =>
      rw [Reader.between_of_error hrs, Reader.between_of_error hrs']
      exact .error hc
  · have hrun' : Reader.nested limit r' s' = Reader.tooDeep limit s' :=
      if_neg (hs ▸ hdepth)
    rw [hrun']
    exact .deep

/-- The second run one level deeper. -/
theorem below {r : EStateM.Result SyntaxError ParseState α} {r' : Reader β}
    (h : Twin limit 1 R r (r' (s'.sink 1))) : Twin limit 0 R r (Reader.nested limit r' s') := by
  by_cases hdepth : s'.depth < limit
  · have hrun' : Reader.nested limit r' s' = Reader.between _ _ r' s' := if_pos hdepth
    rw [hrun']
    generalize hrs' : r' (s'.sink 1) = x' at h
    cases h with
    | deep => exact Reader.between_of_error hrs' ▸ .deep
    | ok h ht => exact Reader.between_of_ok hrs' ▸ .ok h ht
    | error hc => exact Reader.between_of_error hrs' ▸ .error hc
  · have hrun' : Reader.nested limit r' s' = Reader.tooDeep limit s' := if_neg hdepth
    rw [hrun']
    exact .deep

end Twin

section Layers

variable {below : (g : Goal) → Reader g.Tree} {s s' : ParseState} {p : Phrase α} {t : Token}
  {layer : Bool → α → Span → α} {spanOf : α → Span}

/-- The cursor after the mark of a layer and, if it follows, `mut`. -/
def Cursor.afterLayer (c : Cursor) : Cursor :=
  if c.advance.kind = .kwMut then c.advance.advance else c.advance

theorem Cursor.kind_of_ahead {c : Cursor} {rest : List Token} (h : c.ahead = rest) :
    c.kind = kindAt rest 0 := by
  rw [← h]
  rfl

theorem Cursor.ahead_afterLayer {c : Cursor} {rest : List Token} (h : c.advance.ahead = rest) :
    c.afterLayer.ahead = if kindAt rest 0 = .kwMut then rest.tail else rest := by
  rw [afterLayer, kind_of_ahead h, apply_ite Cursor.ahead, ahead_advance c.advance, h]

theorem Phrase.run_eat_eq {k : TokenKind} (hk : k ≠ .eof) :
    (eat k).run options below s = .ok (decide (s.cursor.kind = k))
      { s with cursor := if s.cursor.kind = k then s.cursor.advance else s.cursor } := by
  by_cases h : s.cursor.kind = k
  · obtain ⟨t, ht⟩ := Cursor.exists_of_kind_ne (h ▸ hk : s.cursor.kind ≠ .eof)
    have hrun : (eat k).run options below s = (do let _ ← take; return true : Phrase Bool).run
      options below s := by rw [eat, run_kind, if_pos h]
    rw [hrun, run_bind_of_ok (run_take ht), if_pos h, decide_eq_true h]
    rfl
  · rw [run_eat_of_not h, if_neg h, decide_eq_false h]

def layersOf (layer : Bool → α → Span → α) (spanOf : α → Span) (mark : Token) (mutable : Bool)
    (target : α) : α :=
  let span := mark.span.to (spanOf target)
  if mark.kind = .andAnd then layer false (layer mutable target span) span
  else layer mutable target span

theorem layersOf_of_andAnd {mutable : Bool} {e : α} (h : t.kind = .andAnd) :
    layersOf layer spanOf t mutable e =
      layer false (layer mutable e (t.span.to (spanOf e))) (t.span.to (spanOf e)) := if_pos h

theorem layersOf_of_ne {mutable : Bool} {e : α} (h : t.kind ≠ .andAnd) :
    layersOf layer spanOf t mutable e = layer mutable e (t.span.to (spanOf e)) := if_neg h

/-- What follows the mark is read, and layers are put around it. -/
theorem Phrase.run_referenceLayers (h : s.cursor.ahead? 0 = some t) :
    (referenceLayers layer spanOf p).run options below s =
      (p.run options below >>= fun target =>
        pure (layersOf layer spanOf t (decide (s.cursor.advance.kind = .kwMut)) target) : Reader α)
      { s with cursor := s.cursor.afterLayer } := by
  rw [referenceLayers, run_bind_of_ok (run_take h), run_bind_of_ok (run_eat_eq (by decide)), run_bind]
  rfl

/-- Two trees of two layers, the outer one shared, around trees that are the same up to spans. -/
def TwoLayers [Viewed α] (layer : Bool → α → Span → α) (mutable : Bool) (e e' : α) : Prop :=
  ∃ a a' inner inner' outer outer', e = layer false (layer mutable a inner) outer ∧
    e' = layer false (layer mutable a' inner') outer' ∧ View.bare.Alike .bare a a'

/-- A goal is read with layers in front of what a phrase reads, and the phrase reads the goal where a
layer begins. What the rule does after the layers reads nothing there. -/
structure LayerRule (options : ParseOptions) (g : Goal) (p : Phrase g.Tree)
    (layer : Bool → g.Tree → Span → g.Tree) (spanOf : g.Tree → Span)
    (after : g.Tree → Phrase g.Tree) : Prop where
  locked (n : Nat) (s s' : ParseState) : (Lockstep.placeless options).Locked n p p s s'
  goal (n : Nat) (s : ParseState) : s.cursor.kind = .ampersand →
    p.run options (Goal.read options n) s = Goal.read options n g s
  rule (n : Nat) (s : ParseState) : s.cursor.kind = .ampersand →
    (rule g).run options (Goal.read options n) s =
      (referenceLayers layer spanOf p >>= after).run options (Goal.read options n) s
  after (n : Nat) (s : ParseState) (e : g.Tree) (t : ParseState) :
    p.run options (Goal.read options n) s = .ok e t →
      ∀ e', (after e').run options (Goal.read options n) t = .ok e' t

namespace LayerRule

variable {g : Goal} {p : Phrase g.Tree} {layer : Bool → g.Tree → Span → g.Tree}
  {spanOf : g.Tree → Span} {after : g.Tree → Phrase g.Tree} {a b : Token} {rest : List Token}

/-- The second of two marks begins a tree of its own, with one layer around what is left. -/
theorem twin_second (h : LayerRule options g p layer spanOf after) (s' : ParseState)
    (hs' : s'.cursor.ahead? 0 = some b) (hb : b.kind = .ampersand)
    (hs : s.Twins { s' with cursor := s'.cursor.afterLayer }) :
    Twin options.maxDepth 0
      (fun e e' => ∃ a' sp, e' = layer (decide (s'.cursor.advance.kind = .kwMut)) a' sp ∧
        View.bare.Alike .bare e a')
      (p.run options (Goal.read options n) s) (p.run options (Goal.read options n) s') := by
  have hkind : s'.cursor.kind = .ampersand := (Cursor.kind_of_ahead? hs').trans hb
  rw [h.goal n s' hkind]
  obtain _ | n := n
  · exact .deep
  · refine .below ?_
    rw [h.rule n (s'.sink 1) hkind, run_bind,
      Reader.bind_congr (run_referenceLayers (s := s'.sink 1) hs') fun _ _ _ => rfl, bind_assoc]
    refine .bind_right (Twin.run (h.locked _ _ _) hs (Nat.le_succ n)) fun e e' t' hee' hrun => ?_
    refine ⟨_, h.after n _ e' t' hrun _, e', b.span.to (spanOf e'), ?_, hee'⟩
    exact layersOf_of_ne (by simp [hb])

/-- One mark for two layers is read as two marks are. -/
theorem twin (h : LayerRule options g p layer spanOf after) {c c' : Cursor}
    (hc : c.ahead = t :: rest) (ht : t.kind = .andAnd) (hc' : c'.ahead = a :: b :: rest)
    (ha : a.kind = .ampersand) (hb : b.kind = .ampersand) (s : ParseState) :
    Twin options.maxDepth 0 (TwoLayers layer (decide (kindAt rest 0 = .kwMut)))
      ((referenceLayers layer spanOf p).run options (Goal.read options n) { s with cursor := c })
      ((referenceLayers layer spanOf p).run options (Goal.read options n)
        { s with cursor := c' }) := by
  have hadvance : c.advance.ahead = rest := by rw [Cursor.ahead_advance, hc, List.tail_cons]
  have hadvance' : c'.advance.ahead = b :: rest := by rw [Cursor.ahead_advance, hc', List.tail_cons]
  have hadvance'' : c'.advance.advance.ahead = rest := by
    rw [Cursor.ahead_advance, hadvance', List.tail_cons]
  have hfirst : c.ahead? 0 = some t := by simp [Cursor.ahead?, hc]
  have hfirst' : c'.ahead? 0 = some a := by simp [Cursor.ahead?, hc']
  have hsecond : c'.advance.ahead? 0 = some b := by simp [Cursor.ahead?, hadvance']
  have hnext : c'.advance.kind = .ampersand := (Cursor.kind_of_ahead? hsecond).trans hb
  -- The first of two marks has no `mut` after it.
  have hlayer : c'.afterLayer = c'.advance := if_neg (by simp [hnext])
  have hahead : c.afterLayer.ahead = c'.advance.afterLayer.ahead := by
    rw [Cursor.ahead_afterLayer hadvance, Cursor.ahead_afterLayer hadvance'']
  have hstates : ParseState.Twins { s with cursor := c.afterLayer }
      { s with cursor := c'.advance.afterLayer } :=
    ⟨⟨congrArg _ hahead, rfl, rfl, rfl⟩, hahead⟩
  rw [run_referenceLayers (s := { s with cursor := c }) hfirst,
    run_referenceLayers (s := { s with cursor := c' }) hfirst']
  simp only [hlayer]
  refine .bind (h.twin_second { s with cursor := c'.advance } hsecond hb hstates) ?_
  rintro e _ u u' ⟨a', inner, rfl, hea⟩ hu -
  refine .ok ?_ hu
  rw [Cursor.kind_of_ahead hadvance, Cursor.kind_of_ahead hadvance'', hnext, layersOf_of_andAnd ht,
    layersOf_of_ne (by simp [ha])]
  exact ⟨e, a', _, inner, _, _, rfl, rfl, hea⟩

end LayerRule

end Layers

theorem layerRule_ty (options : ParseOptions) :
    LayerRule options .ty Grammar.ty Ty.reference Ty.span pure where
  locked n _ _ := locked_ty ((Lockstep.placeless options).goals n)
  goal n s hk := by rw [Grammar.ty, run_kind, if_pos (by rw [hk]; decide), run_goal]
  rule n s hk := by
    rw [bind_pure, Grammar.rule, tyRule, run_kind, hk]
  after _ _ _ _ _ _ := rfl

theorem layerRule_pattern (options : ParseOptions) :
    LayerRule options .pattern Grammar.pattern Pattern.reference Pattern.span pure where
  locked n _ _ := locked_pattern ((Lockstep.placeless options).goals n)
  goal n s _ := by rw [Grammar.pattern, run_goal]
  rule n s hk := by
    obtain ⟨t, ht⟩ := Cursor.exists_of_kind_ne (by rw [hk]; decide : s.cursor.kind ≠ .eof)
    have htk : t.kind = .ampersand := (Cursor.kind_of_ahead? ht).symm.trans hk
    rw [bind_pure, Grammar.rule, patternRule, run_current ht, htk]
  after _ _ _ _ _ _ := rfl

/-- No suffix is read where none is bound tightly enough. -/
theorem run_operators_of_not {below : (g : Goal) → Reader g.Tree} {above : Tier} {s : ParseState}
    (h : ∀ τ, s.cursor.kind.tier? = some τ → ¬above < τ) (e : Expr) :
    (operators above e).run options below s = .ok e s := by
  have hnone : (suffix? above).run options below s = .ok none s := by
    rw [suffix?, run_kind]
    match hτ : s.cursor.kind.tier? with
    | none => rfl
    | some τ => exact congrFun (congrArg (run options below) (if_neg (h τ hτ))) s
  have hrepeated : (repeated (suffix? above)).run options below s = .ok [] s := by
    rw [run_repeated]
    exact Reader.collect_of_none hnone
  exact run_bind_of_ok hrepeated

theorem layerRule_expr (options : ParseOptions) :
    LayerRule options (.expr .unary) (Grammar.expr .unary) Expr.borrow Expr.span
      (operators .unary) where
  locked n _ _ := locked_expr ((Lockstep.placeless options).goals n) .unary
  goal n s _ := by rw [Grammar.expr, run_goal]
  rule n s hk := by
    rw [Grammar.rule, exprRule, run_bind, run_bind]
    exact Reader.bind_congr (by rw [term, run_kind, hk]) fun _ _ _ => rfl
  after n s e t h e' := by
    -- All that could go on with an operand has been read with it.
    obtain ⟨y, ⟨-, -, rfl⟩, hd⟩ :=
      (Goal.sound options n).expr .unary s e t ⟨rfl, rfl, rfl⟩ h
    exact run_operators_of_not hd.tier_next e'

section Sessions

variable {t a b : Token} {rest : List Token} {c c' : Cursor}

/-- An expression that begins with two borrows: these, and the suffixes after them. -/
def TwoBorrows (mutable : Bool) (e e' : Expr) : Prop :=
  ∃ (borrows borrows' : Expr) (ss ss' : List Suffix), TwoLayers Expr.borrow mutable borrows borrows' ∧
    View.bare.Alike .bare ss ss' ∧ e = ss.foldl Suffix.attach borrows ∧
    e' = ss'.foldl Suffix.attach borrows'

theorem twin_exprRule (hc : c.ahead = t :: rest) (ht : t.kind = .andAnd)
    (hc' : c'.ahead = a :: b :: rest) (ha : a.kind = .ampersand) (hb : b.kind = .ampersand)
    (above : Tier) (n : Nat) (s : ParseState) :
    Twin options.maxDepth 0 (TwoBorrows (decide (kindAt rest 0 = .kwMut)))
      ((exprRule above).run options (Goal.read options n) { s with cursor := c })
      ((exprRule above).run options (Goal.read options n) { s with cursor := c' }) := by
  have hkind : c.kind = .andAnd := (Cursor.kind_of_ahead hc).trans ht
  have hkind' : c'.kind = .ampersand := (Cursor.kind_of_ahead hc').trans ha
  have hterm : Twin options.maxDepth 0 (TwoLayers Expr.borrow (decide (kindAt rest 0 = .kwMut)))
      (term.run options (Goal.read options n) { s with cursor := c })
      (term.run options (Goal.read options n) { s with cursor := c' }) := by
    rw [term, run_kind, run_kind, hkind, hkind']
    exact (layerRule_expr options).twin hc ht hc' ha hb s
  rw [exprRule, run_bind]
  refine .bind hterm fun e e' u u' he hu _ => ?_
  rw [operators, operators, run_bind, run_bind]
  have hsuffixes : (Lockstep.placeless options).Locked n (repeated (suffix? above))
      (repeated (suffix? above)) u u' :=
    .repeated (fun _ => takesOrLeaves_suffix? above)
      (locked_suffix? ((Lockstep.placeless options).goals n) above)
  refine .bind (Twin.run hsuffixes hu (Nat.le_refl n)) fun ss ss' v v' hss hv _ => ?_
  exact .ok ⟨e, e', ss, ss', he, hss, rfl, rfl⟩ hv

def Session.withTokens (s : Session) (tokens : List Token) : Session :=
  { s with state := { s.state with cursor := { s.state.cursor with ahead := tokens } } }

/-- A reading fails for want of a level. -/
def WantsLevel (r : Except SyntaxError α) : Prop :=
  ∃ limit place, r = .error ⟨.nestingTooDeep limit, place⟩

/-- Unless one of them fails for want of a level, two readings of a phrase yield trees that are the
same up to spans, and have a shape, and leave the same tokens; or both fail with the same cause. -/
def Session.ReadAlike (p : Phrase α) (bare : α → α) (Shape : α → Prop) (s s' : Session) : Prop :=
  ¬WantsLevel (s.read p).1 → ¬WantsLevel (s'.read p).1 →
    (∃ e e', (s.read p).1 = .ok e ∧ (s'.read p).1 = .ok e' ∧ bare e = bare e' ∧ Shape e ∧ Shape e' ∧
      (s.read p).2.state.cursor.ahead = (s'.read p).2.state.cursor.ahead) ∨
    ∃ e e', (s.read p).1 = .error e ∧ (s'.read p).1 = .error e' ∧ e.cause = e'.cause

theorem Session.readAlike_of_twin {p : Phrase α} {bare : α → α} {Shape : α → Prop}
    {R : α → α → Prop} {s s' : Session}
    (h : Twin limit 0 R (p.read s.options s.state) (p.read s'.options s'.state))
    (hR : ∀ e e', R e e' → bare e = bare e' ∧ Shape e ∧ Shape e') : s.ReadAlike p bare Shape s' := by
  intro _ hdeep'
  unfold WantsLevel read at hdeep'
  unfold read
  generalize p.read s.options s.state = x, p.read s'.options s'.state = x' at h hdeep'
  cases h with
  | deep => exact absurd ⟨_, _, rfl⟩ hdeep'
  | ok h ht =>
    obtain ⟨hbare, hshape, hshape'⟩ := hR _ _ h
    exact .inl ⟨_, _, rfl, rfl, hbare, hshape, hshape', ht.ahead_eq⟩
  | error hc => exact .inr ⟨_, _, rfl, rfl, hc⟩

/-- A goal that is a level of its own. -/
theorem twin_goal (options : ParseOptions) (g : Goal) {R : g.Tree → g.Tree → Prop}
    {s s' : ParseState} (hs : s.depth = s'.depth)
    (h : ∀ n, Twin options.maxDepth 0 R
      ((rule g).run options (Goal.read options n) { s with depth := s.depth + 1 })
      ((rule g).run options (Goal.read options n) { s' with depth := s'.depth + 1 })) :
    Twin options.maxDepth 0 R ((goal g).read options s) ((goal g).read options s') := by
  have hgoal (n : Nat) :
      Twin options.maxDepth 0 R (Goal.read options n g s) (Goal.read options n g s') := by
    cases n with
    | zero => exact .deep
    | succ n => exact .nested hs (h n)
  unfold Phrase.read
  rw [run_goal]
  exact hgoal options.maxDepth

/-- Where an expression, a type or a pattern begins, `&&` is read like `&` `&`: unless a level is
wanting, the trees are the same up to spans and the same tokens are left, or both fail with the same
cause. The tree is a shared layer around a layer that is mutable if `mut` follows, and around them
what follows the operand in an expression. -/
theorem Session.andAnd_readAlike (s : Session) {t a b : Token} (ht : t.kind = .andAnd)
    (ha : a.kind = .ampersand) (hb : b.kind = .ampersand) (rest : List Token) :
    let s₁ := s.withTokens (t :: rest)
    let s₂ := s.withTokens (a :: b :: rest)
    let mutable := decide (kindAt rest 0 = .kwMut)
    (∀ above, s₁.ReadAlike (Grammar.expr above) Expr.bare
      (fun e => ∃ operand inner outer, ∃ ss : List Suffix,
        e = ss.foldl Suffix.attach (.borrow false (.borrow mutable operand inner) outer)) s₂) ∧
    s₁.ReadAlike Grammar.ty Ty.bare (fun e => ∃ target inner outer,
      e = .reference false (.reference mutable target inner) outer) s₂ ∧
    s₁.ReadAlike Grammar.pattern Pattern.bare (fun e => ∃ target inner outer,
      e = .reference false (.reference mutable target inner) outer) s₂ := by
  intro s₁ s₂ mutable
  refine ⟨fun above => ?_, ?_, ?_⟩
  · have htwin : Twin s.options.maxDepth 0 (TwoBorrows mutable)
        ((Grammar.expr above).read s.options s₁.state) ((Grammar.expr above).read s.options s₂.state) := by
      exact twin_goal s.options (.expr above) rfl fun n => twin_exprRule rfl ht rfl ha hb above n
        { s.state with depth := s.state.depth + 1 }
    refine readAlike_of_twin htwin ?_
    rintro _ _ ⟨_, _, ss, ss', ⟨e, e', inner, inner', outer, outer', rfl, rfl, he⟩, hss, rfl, rfl⟩
    refine ⟨?_, ⟨e, inner, outer, ss, rfl⟩, e', inner', outer', ss', rfl⟩
    have he : e.view .bare = e'.view .bare := he
    have hborrows : View.bare.Alike .bare (Expr.borrow false (.borrow mutable e inner) outer)
        (Expr.borrow false (.borrow mutable e' inner') outer') := by
      simp [Expr.view, he, View.span_bare]
    have hbare := hborrows.foldl_attach hss
    rw [← Expr.view_bare, ← Expr.view_bare]
    exact hbare
  · have htwin : Twin s.options.maxDepth 0 (TwoLayers Ty.reference mutable)
        (Grammar.ty.read s.options s₁.state) (Grammar.ty.read s.options s₂.state) := by
      have hkind : s₁.state.cursor.kind = .andAnd := ht
      have hkind' : s₂.state.cursor.kind = .ampersand := ha
      have hread {s' : ParseState} (h : s'.cursor.kind ∈ typeStarts) :
          Grammar.ty.read s.options s' = (goal .ty).read s.options s' := by
        show (Grammar.ty.run s.options _ s' : EStateM.Result _ _ _) = _
        rw [Grammar.ty, run_kind, if_pos h]
        rfl
      rw [hread (by rw [hkind]; decide), hread (by rw [hkind']; decide)]
      refine twin_goal s.options .ty rfl fun n => ?_
      rw [Grammar.rule, tyRule, run_kind, run_kind]
      simp only [hkind, hkind']
      exact (layerRule_ty s.options).twin rfl ht rfl ha hb { s.state with depth := s.state.depth + 1 }
    refine readAlike_of_twin htwin ?_
    rintro _ _ ⟨e, e', inner, inner', outer, outer', rfl, rfl, he⟩
    have he : e.view .bare = e'.view .bare := he
    rw [Ty.view_bare, Ty.view_bare] at he
    exact ⟨by simp [Ty.bare, he], ⟨e, inner, outer, rfl⟩, e', inner', outer', rfl⟩
  · have htwin : Twin s.options.maxDepth 0 (TwoLayers Pattern.reference mutable)
        (Grammar.pattern.read s.options s₁.state) (Grammar.pattern.read s.options s₂.state) := by
      refine twin_goal s.options .pattern rfl fun n => ?_
      rw [Grammar.rule, patternRule, run_current (t := t) rfl, run_current (t := a) rfl, ht, ha]
      exact (layerRule_pattern s.options).twin rfl ht rfl ha hb
        { s.state with depth := s.state.depth + 1 }
    refine readAlike_of_twin htwin ?_
    rintro _ _ ⟨e, e', inner, inner', outer, outer', rfl, rfl, he⟩
    have he : e.view .bare = e'.view .bare := he
    rw [Pattern.view_bare, Pattern.view_bare] at he
    exact ⟨by simp [Pattern.bare, he], ⟨e, inner, outer, rfl⟩, e', inner', outer', rfl⟩

/-- The patterns `&&mut x` and `& &mut x`. -/
theorem Session.andAnd_readAlike_mut :
    let x : Token := ⟨.identifier, "x", .nowhere⟩
    let s : Session := .start [] "t" ⟨4, true⟩
    ∃ e e', ((s.withTokens [.fixed .andAnd, .fixed .kwMut, x]).read Grammar.pattern).1 = .ok e ∧
      ((s.withTokens [.fixed .ampersand, .fixed .ampersand, .fixed .kwMut, x]).read
        Grammar.pattern).1 = .ok e' ∧ e.bare = e'.bare := by
  intro x s
  have hread := (andAnd_readAlike s (t := .fixed .andAnd) (a := .fixed .ampersand)
    (b := .fixed .ampersand) rfl rfl rfl [.fixed .kwMut, x]).2.2
  have not_wants {r : Except SyntaxError Pattern} (h : (r matches .ok _) = true) :
      ¬WantsLevel r := by
    rintro ⟨_, _, rfl⟩
    cases h
  have hok : (((s.withTokens [.fixed .andAnd, .fixed .kwMut, x]).read Grammar.pattern).1
      matches .ok _) = true := by decide +kernel
  have hok' : (((s.withTokens [.fixed .ampersand, .fixed .ampersand, .fixed .kwMut, x]).read
      Grammar.pattern).1 matches .ok _) = true := by decide +kernel
  rcases hread (not_wants hok) (not_wants hok') with ⟨e, e', he, he', hbare, -⟩ | ⟨_, _, he, -⟩
  · exact ⟨e, e', he, he', hbare⟩
  · rw [he] at hok
    cases hok

end Sessions

end FrontEnd
