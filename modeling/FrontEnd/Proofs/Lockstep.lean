import FrontEnd.Proofs.Termination
import FrontEnd.Proofs.Tree.View
/-!
# Two readings side by side

Two readings whose tokens look alike take the same steps. What it means for tokens, names and errors
to look alike differs from one comparison to the next, but the grammar need be gone through only once:
a comparison says how states and errors correspond and why each single step respects it, and then it
holds of all runs of all phrases.
-/
namespace FrontEnd

open Phrase

/-- What can be seen through a view. -/
class Viewed (α : Type) where
  view : View → α → α

instance : Viewed Bool := ⟨fun _ b => b⟩
instance : Viewed Unit := ⟨fun _ u => u⟩
instance : Viewed Position := ⟨View.position⟩
instance : Viewed Span := ⟨View.span⟩
instance : Viewed Token := ⟨Token.view⟩
instance : Viewed Path := ⟨Path.view⟩
instance : Viewed Pattern := ⟨Pattern.view⟩
instance : Viewed Ty := ⟨Ty.view⟩
instance : Viewed Expr := ⟨Expr.view⟩
instance : Viewed FieldValue := ⟨FieldValue.view⟩
instance : Viewed Block := ⟨Block.view⟩
instance : Viewed Condition := ⟨Condition.view⟩
instance : Viewed Link := ⟨Link.view⟩
instance : Viewed Conditional := ⟨Conditional.view⟩
instance : Viewed Otherwise := ⟨Otherwise.view⟩
instance : Viewed Arm := ⟨Arm.view⟩
instance : Viewed Stmt := ⟨Stmt.view⟩
instance : Viewed TypedName := ⟨TypedName.view⟩
instance : Viewed SelfParam := ⟨SelfParam.view⟩
instance : Viewed FunctionDecl := ⟨FunctionDecl.view⟩
instance : Viewed ConstantDecl := ⟨ConstantDecl.view⟩
instance : Viewed Member := ⟨Member.view⟩
instance : Viewed Item := ⟨Item.view⟩

instance {α : Type} [Viewed α] : Viewed (Option α) := ⟨fun v => Option.map (Viewed.view v)⟩
instance {α : Type} [Viewed α] : Viewed (List α) := ⟨fun v => List.map (Viewed.view v)⟩
instance {α β : Type} [Viewed α] [Viewed β] : Viewed (α × β) :=
  ⟨fun v => Prod.map (Viewed.view v) (Viewed.view v)⟩

def Element.view (v : View) : Element → Element
  | .statement s => .statement (s.view v)
  | .tail e => .tail (e.view v)

instance : Viewed Element := ⟨Element.view⟩

def Suffix.view (v : View) : Suffix → Suffix
  | .binary operator right => .binary (operator.view v) (right.view v)
  | .assign value => .assign (value.view v)
  | .compoundAssign operator value => .compoundAssign (operator.view v) (value.view v)
  | .cast target => .cast (target.view v)
  | .call arguments closing => .call (arguments.map (Expr.view v)) (closing.view v)
  | .index i closing => .index (i.view v) (closing.view v)
  | .field name => .field (name.view v)
  | .methodCall method arguments closing =>
    .methodCall (method.view v) (arguments.map (Expr.view v)) (closing.view v)

instance : Viewed Suffix := ⟨Suffix.view⟩

instance : (g : Goal) → Viewed g.Tree
  | .expr _ => inferInstanceAs (Viewed Expr)
  | .blockLike => inferInstanceAs (Viewed Expr)
  | .block => inferInstanceAs (Viewed Block)
  | .element => inferInstanceAs (Viewed Element)
  | .elseIf => inferInstanceAs (Viewed Conditional)
  | .arm => inferInstanceAs (Viewed Arm)
  | .ty => inferInstanceAs (Viewed Ty)
  | .pattern => inferInstanceAs (Viewed Pattern)

attribute [simp] Viewed.view

/-- Two values that are seen as the same through a view each. -/
@[simp] def View.Alike {α : Type} [Viewed α] (v w : View) (a b : α) : Prop :=
  Viewed.view v a = Viewed.view w b

namespace View.Alike

variable {α β : Type} [Viewed α] [Viewed β] {v w : View}

theorem some {a b : α} (h : v.Alike w a b) : v.Alike w (some a) (some b) := congrArg Option.some h

theorem of_some {a b : α} (h : v.Alike w (Option.some a) (Option.some b)) : v.Alike w a b :=
  Option.some.inj h

theorem none : v.Alike w (none : Option α) Option.none := rfl

theorem nil : v.Alike w ([] : List α) [] := rfl

theorem cons {a b : α} {as bs : List α} (h : v.Alike w a b) (hs : v.Alike w as bs) :
    v.Alike w (a :: as) (b :: bs) := by
  have h : Viewed.view v a = Viewed.view w b := h
  have hs : as.map (Viewed.view v) = bs.map (Viewed.view w) := hs
  show (a :: as).map (Viewed.view v) = (b :: bs).map (Viewed.view w)
  simp [h, hs]

theorem fst {x y : α × β} (h : v.Alike w x y) : v.Alike w x.1 y.1 := by
  have h : x.map (Viewed.view v) (Viewed.view v) = y.map (Viewed.view w) (Viewed.view w) := h
  exact (Prod.ext_iff.mp h).1

theorem snd {x y : α × β} (h : v.Alike w x y) : v.Alike w x.2 y.2 := by
  have h : x.map (Viewed.view v) (Viewed.view v) = y.map (Viewed.view w) (Viewed.view w) := h
  exact (Prod.ext_iff.mp h).2

theorem kind_eq {t t' : Token} (h : v.Alike w t t') : t.kind = t'.kind := by
  have h : t.view v = t'.view w := h
  rw [← t.kind_view v, h, Token.kind_view]

theorem span {t t' : Token} (h : v.Alike w t t') : v.Alike w t.span t'.span := by
  have h : t.view v = t'.view w := h
  exact congrArg Token.span h

theorem path_span {p p' : Path} (h : v.Alike w p p') : v.Alike w p.span p'.span := by
  have h : p.view v = p'.view w := h
  exact congrArg Path.span h

theorem pattern_span {p p' : Pattern} (h : v.Alike w p p') : v.Alike w p.span p'.span := by
  have h : p.view v = p'.view w := h
  show v.span _ = w.span _
  rw [← p.span_view, h, Pattern.span_view]

theorem ty_span {a a' : Ty} (h : v.Alike w a a') : v.Alike w a.span a'.span := by
  have h : a.view v = a'.view w := h
  show v.span _ = w.span _
  rw [← a.span_view, h, Ty.span_view]

theorem expr_span {e e' : Expr} (h : v.Alike w e e') : v.Alike w e.span e'.span := by
  have h : e.view v = e'.view w := h
  show v.span _ = w.span _
  rw [← e.span_view, h, Expr.span_view]

theorem isBlockLike_eq {e e' : Expr} (h : v.Alike w e e') : e.isBlockLike = e'.isBlockLike := by
  have h : e.view v = e'.view w := h
  rw [← e.isBlockLike_view v, h, Expr.isBlockLike_view]

theorem start {a a' : Span} (h : v.Alike w a a') : v.Alike w a.start a'.start := by
  have h : v.span a = w.span a' := h
  exact congrArg Span.start h

theorem stop {a a' : Span} (h : v.Alike w a a') : v.Alike w a.stop a'.stop := by
  have h : v.span a = w.span a' := h
  exact congrArg Span.stop h

theorem span_to {a a' b b' : Span} (h : v.Alike w a a') (h' : v.Alike w b b') :
    v.Alike w (a.to b) (a'.to b') := by
  have hstart : v.position a.start = w.position a'.start := h.start
  have hstop : v.position b.stop = w.position b'.stop := h'.stop
  show v.span _ = w.span _
  simp [View.span, Span.to, hstart, hstop]

end View.Alike

namespace Cursor

variable {c : Cursor} {t : Token}

theorem kind_of_ahead? (h : c.ahead? 0 = some t) : c.kind = t.kind := by simp [kind, kindAhead, h]

theorem exists_of_kind_ne (h : c.kind ≠ .eof) : ∃ t, c.ahead? 0 = some t := by
  cases ht : c.ahead? 0 with
  | none => exact absurd (by simp [kind, kindAhead, ht]) h
  | some t => exact ⟨t, rfl⟩

theorem position_of_ahead? (h : c.ahead? 0 = some t) : c.position = t.span.start := by
  obtain ⟨passed, _ | ⟨u, us⟩, beyond, file⟩ := c <;> cases h
  rfl

theorem kind_advance (h : c.ahead? 0 = some t) : c.advance.kind = c.kindAhead 1 := by
  obtain ⟨passed, _ | ⟨u, us⟩, beyond, file⟩ := c <;> cases h
  cases us <;> rfl

end Cursor

/-- A level of nesting is left. -/
def ParseState.CanNest (options : ParseOptions) (fuel : Nat) (s : ParseState) : Prop :=
  (∃ n, fuel = n + 1) ∧ s.depth < options.maxDepth

theorem ParseState.CanNest.of_kept {options : ParseOptions} {fuel : Nat} {s t : ParseState}
    (h : s.CanNest options fuel) (ht : s.Kept t) : t.CanNest options fuel :=
  ⟨h.1, ht.depth_eq ▸ h.2⟩

namespace Phrase

variable {α : Type} {options : ParseOptions} {below : (g : Goal) → Reader g.Tree} {s : ParseState}
  {t : Token} {ks : List TokenKind} {expected : String}

/-- A reading of a phrase fails right where it starts, since something else is expected. -/
def Refuses (options : ParseOptions) (fuel : Nat) (p : Phrase α) (expected : String)
    (s : ParseState) : Prop :=
  p.run options (Goal.read options fuel) s = .error (s.cursor.unexpected expected) s

/-- Every successful run of a phrase reads a goal. -/
def Nests (options : ParseOptions) (fuel : Nat) (p : Phrase α) : Prop :=
  ∀ s a t, p.run options (Goal.read options fuel) s = .ok a t → t.CanNest options fuel

namespace Nests

variable {β : Type} {fuel : Nat} {p q : Phrase α} {f : α → Phrase β}

theorem goal {g : Goal} : (goal g).Nests options fuel := by
  intro s a t h
  rw [run_goal] at h
  cases fuel with
  | zero => cases h
  | succ n =>
    have hdepth := ((ParseState.Kept.invariant options).goal (n + 1) g).of_ok h |>.depth_eq
    exact ⟨⟨n, rfl⟩, hdepth ▸ (Reader.ok_of_nested h).1⟩

theorem bind_left (hp : p.Nests options fuel) : (p >>= f).Nests options fuel := by
  intro s b u h
  rw [run_bind] at h
  obtain ⟨a, t, hr, hft⟩ := Reader.ok_of_bind h
  obtain ⟨hfuel, hdepth⟩ := hp s a t hr
  exact ⟨hfuel, ((run_kept (f a) options fuel).of_ok hft).depth_eq ▸ hdepth⟩

theorem bind_right (hf : ∀ a, (f a).Nests options fuel) : (p >>= f).Nests options fuel := by
  intro s b u h
  rw [run_bind] at h
  obtain ⟨a, t, hr, hft⟩ := Reader.ok_of_bind h
  exact hf a t b u hft

theorem ite {c : Prop} [Decidable c] (hp : p.Nests options fuel) (hq : q.Nests options fuel) :
    (if c then p else q).Nests options fuel := by
  split
  · exact hp
  · exact hq

end Nests

theorem run_current {f : Token → Phrase α} (h : s.cursor.ahead? 0 = some t) :
    (current >>= f).run options below s = (f t).run options below s := by
  simp [current, andThen, run, Act.run, h]

theorem run_current_of_none {f : Token → Phrase α} (h : s.cursor.ahead? 0 = none) :
    (current >>= f).run options below s = .error (s.cursor.unexpected "a token") s := by
  simp [current, andThen, run, Act.run, h, Reader.fail]

theorem run_take (h : s.cursor.ahead? 0 = some t) :
    take.run options below s = .ok t { s with cursor := s.cursor.advance } := by
  simp [take, run, Act.run, h]
  rfl

theorem kind_of_run_take {u : ParseState} (h : take.run options below s = .ok t u) :
    u.cursor.kind = s.cursor.kindAhead 1 := by
  cases ht : s.cursor.ahead? 0 with
  | none => simp [take, run, Act.run, ht, Reader.fail] at h
  | some t =>
    rw [run_take ht] at h
    cases h
    exact Cursor.kind_advance ht

theorem run_expectOneOf (h : s.cursor.ahead? 0 = some t) (ht : t.kind ∈ ks) :
    (expectOneOf ks expected).run options below s =
      .ok t { s with cursor := s.cursor.advance } := by
  simp [expectOneOf, run, Act.run, h, ht, run_take h]

theorem run_expectOneOf_of_not (h : s.cursor.kind ∉ ks) :
    (expectOneOf ks expected).run options below s =
      .error (s.cursor.unexpected expected) s := by
  cases ht : s.cursor.ahead? 0 with
  | none => simp [expectOneOf, run, Act.run, ht, Reader.fail]
  | some t =>
    rw [Cursor.kind_of_ahead? ht] at h
    simp [expectOneOf, run, Act.run, ht, h, Reader.fail]

theorem run_bind_of_ok {β : Type} {p : Phrase α} {f : α → Phrase β} {a : α} {u : ParseState}
    (h : p.run options below s = .ok a u) :
    (p >>= f).run options below s = (f a).run options below u := by
  rw [run_bind, Reader.bind_of_ok h]

theorem run_bind_of_error {β : Type} {p : Phrase α} {f : α → Phrase β} {e : SyntaxError}
    {u : ParseState} (h : p.run options below s = .error e u) :
    (p >>= f).run options below s = .error e u := by
  rw [run_bind, Reader.bind_of_error h]

theorem run_kind {f : TokenKind → Phrase α} :
    (kind >>= f).run options below s = (f s.cursor.kind).run options below s := rfl

namespace Refuses

variable {β : Type} {fuel : Nat} {p : Phrase α} {f : α → Phrase β}

theorem bind (hp : p.Refuses options fuel expected s) : (p >>= f).Refuses options fuel expected s :=
  run_bind_of_error hp

theorem goal {g : Goal} (hs : s.depth < options.maxDepth)
    (hg : (Grammar.rule g).Refuses options fuel expected { s with depth := s.depth + 1 }) :
    (goal g).Refuses options (fuel + 1) expected s := by
  rw [Refuses, run_goal, Goal.read, Reader.nested, if_pos hs, Reader.between, hg]
  rfl

end Refuses

theorem run_expect {k : TokenKind} (h : s.cursor.ahead? 0 = some t) (hk : t.kind = k) :
    (expect k).run options below s = .ok t { s with cursor := s.cursor.advance } := by
  have hkind : s.cursor.kind = k := (Cursor.kind_of_ahead? h).trans hk
  have hrun : (expect k).run options below s =
    (if s.cursor.kind = k then take else fail k.describe).run options below s := rfl
  rw [hrun, if_pos hkind, run_take h]

theorem run_eat_of_not {k : TokenKind} (h : s.cursor.kind ≠ k) :
    (eat k).run options below s = .ok false s := by
  have hrun : (eat k).run options below s =
    (if s.cursor.kind = k then (do let _ ← take; return true) else return false :
      Phrase Bool).run options below s := rfl
  rw [hrun, if_neg h]
  rfl

theorem run_after?_of_not {k : TokenKind} {p : Phrase α} (h : s.cursor.kind ≠ k) :
    (after? k p).run options below s = .ok none s :=
  run_bind_of_ok (run_eat_of_not h)

theorem run_eachAfter_of_not {k : TokenKind} {p : Phrase α} (h : s.cursor.kind ≠ k) :
    (eachAfter k p).run options below s = .ok [] s := by
  rw [eachAfter, run_repeated]
  exact Reader.collect_of_none (run_after?_of_not h)

theorem run_bindAll (symbols : List Symbol) :
    (bindAll symbols).run options below s =
      .ok () { s with toNames := s.bindAll symbols } := by
  induction symbols generalizing s with
  | nil => rfl
  | cons symbol symbols ih => exact ih

end Phrase

/-- A comparison of two readings with the same limit of nesting. What the errors have in common may
depend on where the readings stop. -/
structure Lockstep where
  limit : Nat
  resolve : Bool
  resolve' : Bool
  left : View
  right : View
  states : ParseState → ParseState → Prop
  errors : Cursor → Cursor → SyntaxError → SyntaxError → Prop
  constants_eq : left.constants = right.constants
  /-- As many levels are entered. -/
  depth_eq {s s'} : states s s' → s.depth = s'.depth
  literals_eq {s s'} : states s s' → s.structLiterals = s'.structLiterals
  setDepth {s s'} (d : Nat) : states s s' → states { s with depth := d } { s' with depth := d }
  setLiterals {s s'} (allowed : Bool) : states s s' →
    states { s with structLiterals := allowed } { s' with structLiterals := allowed }
  push {s s'} : states s s' → states { s with toNames := s.push } { s' with toNames := s'.push }
  pop {s s'} : states s s' → states { s with toNames := s.pop } { s' with toNames := s'.pop }
  /-- The same kind of token is next, and unless the input ends there, the kinds after it are the
  same as well. -/
  kind_eq {s s'} : states s s' → s.cursor.kind = s'.cursor.kind
  next_eq {s s'} : states s s' → s.cursor.kind ≠ .eof → s.cursor.kindAhead 1 = s'.cursor.kindAhead 1
  afterNext_eq {s s'} : states s s' → s.cursor.kind ≠ .eof → s.cursor.kindAhead 1 ≠ .eof →
    s.cursor.kindAhead 2 = s'.cursor.kindAhead 2
  take {s s'} : states s s' → s.cursor.kind ≠ .eof → ∃ t t', s.cursor.ahead? 0 = some t ∧
    s'.cursor.ahead? 0 = some t' ∧ left.Alike right t t' ∧
    states { s with cursor := s.cursor.advance } { s' with cursor := s'.cursor.advance }
  spanFrom {s s'} {a a' : Span} : states s s' → left.Alike right a a' →
    left.Alike right (s.cursor.spanFrom a) (s'.cursor.spanFrom a')
  /-- The current tokens look alike, or the input ends. There it is no matter what is expected, unless
  the inputs end in the same way. -/
  current {s s'} : states s s' → left.Alike right (s.cursor.ahead? 0) (s'.cursor.ahead? 0) ∨
    s.cursor.kind = .eof ∧ ∀ x y,
      ((s.cursor.ahead? 0).isSome = (s'.cursor.ahead? 0).isSome → x = y) →
      errors s.cursor s'.cursor (s.cursor.unexpected x) (s'.cursor.unexpected y)
  unexpected {s s'} (x : String) : states s s' →
    errors s.cursor s'.cursor (s.cursor.unexpected x) (s'.cursor.unexpected x)
  tooDeep {s s'} : states s s' → errors s.cursor s'.cursor
    ⟨.nestingTooDeep limit, s.cursor.position⟩ ⟨.nestingTooDeep limit, s'.cursor.position⟩
  /-- Alike names mean a constant or not in both, or it cannot be seen. -/
  constant {s s'} {t t' : Token} : states s s' → left.Alike right t t' →
    t.kind = .identifier →
    (resolve && s.isConstant t.value) = (resolve' && s'.isConstant t'.value) ∨
      left.constants = false
  bindPattern {s s'} {p p' : Pattern} {a a' : Option Ty} : states s s' → left.Alike right p p' →
    left.Alike right a a' →
    states { s with toNames := s.bindAll (Symbol.ofPattern p a) }
      { s' with toNames := s'.bindAll (Symbol.ofPattern p' a') }
  declareSelf {s s'} {a a' : Option Ty} {mutable : Bool} {place place' : Position} : states s s' →
    left.Alike right a a' → left.Alike right place place' →
    states { s with toNames := s.declare (.var "self" a mutable) place }
      { s' with toNames := s'.declare (.var "self" a' mutable) place' }
  declareParam {s s'} {t t' : Token} {a a' : Ty} : states s s' → left.Alike right t t' →
    left.Alike right a a' →
    states { s with toNames := s.declare (.var t.value (some a) false) t.span.start }
      { s' with toNames := s'.declare (.var t'.value (some a') false) t'.span.start }
  declareMember {s s'} {m m' : Member} {place place' : Position} : states s s' →
    left.Alike right m m' → left.Alike right place place' →
    states { s with toNames := s.declare (.ofMember m) place }
      { s' with toNames := s'.declare (.ofMember m') place' }
  declareItem {s s'} {i i' : Item} : states s s' → left.Alike right i i' →
    states { s with toNames := s.declare (.ofItem i) i.span.start }
      { s' with toNames := s'.declare (.ofItem i') i'.span.start }

namespace Lockstep

variable (L : Lockstep) {α β : Type} [Viewed α] [Viewed β] {s s' : ParseState}

def options : ParseOptions := ⟨L.limit, L.resolve⟩

def options' : ParseOptions := ⟨L.limit, L.resolve'⟩

abbrev Alike (a b : α) : Prop := L.left.Alike L.right a b

/-- Two runs end with values that look alike or with errors that correspond. -/
def Ends : EStateM.Result SyntaxError ParseState α → EStateM.Result SyntaxError ParseState α → Prop
  | .ok a t, .ok a' t' => L.Alike a a' ∧ L.states t t'
  | .error e t, .error e' t' => L.errors t.cursor t'.cursor e e' ∧ L.states t t'
  | _, _ => False

/-- From two states that correspond, runs end alike. -/
def Agree (r r' : Reader α) (s s' : ParseState) : Prop := L.states s s' → L.Ends (r s) (r' s')

def Locked (fuel : Nat) (p p' : Phrase α) (s s' : ParseState) : Prop :=
  L.Agree (p.run L.options (Goal.read L.options fuel)) (p'.run L.options' (Goal.read L.options' fuel)) s s'

def Goals (fuel : Nat) : Prop := ∀ g s s', L.Locked fuel (goal g) (goal g) s s'

variable {L}

theorem canNest_of_states {fuel : Nat} (hs : L.states s s') (h : s.CanNest L.options fuel) :
    s'.CanNest L.options' fuel := ⟨h.1, L.depth_eq hs ▸ h.2⟩

namespace Agree

variable {r r' : Reader α} {f f' : α → Reader β}

theorem bind (hr : L.Agree r r' s s')
    (hf : ∀ a a' t t', L.Alike a a' → r s = .ok a t → L.Agree (f a) (f' a') t t') :
    L.Agree (r >>= f) (r' >>= f') s s' := by
  intro hs
  have h := hr hs
  match hrs : r s, hrs' : r' s' with
  | .ok a t, .ok a' t' =>
    rw [hrs, hrs'] at h
    rw [Reader.bind_of_ok hrs, Reader.bind_of_ok hrs']
    exact hf a a' t t' h.1 hrs h.2
  | .error e t, .error e' t' =>
    rw [hrs, hrs'] at h
    rw [Reader.bind_of_error hrs, Reader.bind_of_error hrs']
    exact h
  | .ok a t, .error e' t' | .error e t, .ok a' t' =>
    rw [hrs, hrs'] at h
    exact h.elim

theorem between {before after before' after' : ParseState → ParseState}
    (hr : L.Agree r r' (before s) (before' s')) (hb : L.states s s' → L.states (before s) (before' s'))
    (hafter : ∀ {t t'}, L.states t t' → L.states (after t) (after' t'))
    (hc : ∀ t, (after t).cursor = t.cursor) (hc' : ∀ t, (after' t).cursor = t.cursor) :
    L.Agree (Reader.between before after r) (Reader.between before' after' r') s s' := by
  intro hs
  have h := hr (hb hs)
  match hrs : r (before s), hrs' : r' (before' s') with
  | .ok a t, .ok a' t' =>
    rw [hrs, hrs'] at h
    rw [Reader.between_of_ok hrs, Reader.between_of_ok hrs']
    exact ⟨h.1, hafter h.2⟩
  | .error e t, .error e' t' =>
    rw [hrs, hrs'] at h
    rw [Reader.between_of_error hrs, Reader.between_of_error hrs']
    exact ⟨by rw [hc, hc']; exact h.1, hafter h.2⟩
  | .ok a t, .error e' t' | .error e t, .ok a' t' =>
    rw [hrs, hrs'] at h
    exact h.elim

theorem nested (hr : ∀ s s', L.Agree r r' s s') :
    L.Agree (Reader.nested L.limit r) (Reader.nested L.limit r') s s' := by
  intro hs
  unfold Reader.nested
  rw [← L.depth_eq hs]
  split
  · refine between (hr _ _) (fun hs => ?_) (fun {t t'} ht => ?_) (fun _ => rfl) (fun _ => rfl) hs
    · rw [← L.depth_eq hs]
      exact L.setDepth _ hs
    · rw [← L.depth_eq ht]
      exact L.setDepth _ ht
  · exact ⟨L.tooDeep hs, hs⟩

/-- Loops in which every round that goes on takes a token, with what holds before every round. -/
theorem many {round round' : Reader (Option α)} {I : ParseState → Prop}
    (htake : ∀ s a t, round s = .ok (some a) t → t.cursor.ahead.length < s.cursor.ahead.length)
    (htake' : ∀ s a t, round' s = .ok (some a) t → t.cursor.ahead.length < s.cursor.ahead.length)
    (hI : ∀ s a t, I s → round s = .ok (some a) t → I t)
    (hr : ∀ s s', I s → L.Agree round round' s s') (hs : I s) :
    L.Agree (Reader.many round) (Reader.many round') s s' := by
  intro hst
  induction hn : s.cursor.ahead.length using Nat.strongRecOn generalizing s s' with
  | ind n ih =>
    have h := hr s s' hs hst
    unfold Reader.many at ih ⊢
    match hrs : round s, hrs' : round' s' with
    | .error e t, .error e' t' =>
      rw [hrs, hrs'] at h
      rw [Reader.collect_of_error hrs, Reader.collect_of_error hrs']
      exact h
    | .ok none t, .ok none t' =>
      rw [hrs, hrs'] at h
      rw [Reader.collect_of_none hrs, Reader.collect_of_none hrs']
      exact ⟨rfl, h.2⟩
    | .ok (some a) t, .ok (some a') t' =>
      rw [hrs, hrs'] at h
      have hlt := htake s a t hrs
      have hlt' := htake' s' a' t' hrs'
      rw [Reader.collect_of_some hrs hlt, Reader.collect_of_some hrs' hlt']
      have hrest := ih t.cursor.ahead.length (hn ▸ hlt) (hI s a t hs hrs) h.2 rfl
      rw [Reader.collect_eq (Nat.lt_succ_self _) hlt,
        Reader.collect_eq (Nat.lt_succ_self _) hlt'] at hrest
      have hagree : L.Agree (Reader.collect round s.cursor.ahead.length)
          (Reader.collect round' s'.cursor.ahead.length) t t' := fun _ => hrest
      exact hagree.bind (fun as as' _ _ has _ hu => ⟨h.1.of_some.cons has, hu⟩) h.2
    | .ok none t, .ok (some a') t' | .ok (some a) t, .ok none t' =>
      rw [hrs, hrs'] at h
      exact absurd h.1 nofun
    | .ok a t, .error e' t' | .error e t, .ok a' t' =>
      rw [hrs, hrs'] at h
      exact h.elim

end Agree

namespace Locked

variable {fuel : Nat} {p p' q q' : Phrase α} {k : TokenKind}

theorem pure {a a' : α} (h : L.Alike a a') :
    L.Locked fuel (Pure.pure a) (Pure.pure a') s s' := fun hs => ⟨h, hs⟩

theorem fail {expected : String} :
    L.Locked fuel (Phrase.fail expected : Phrase α) (Phrase.fail expected) s s' :=
  fun hs => ⟨L.unexpected expected hs, hs⟩

/-- One phrase after the other, where it is known how the first was read. -/
theorem bindRun {f f' : α → Phrase β} (hp : L.Locked fuel p p' s s')
    (hf : ∀ {a a' t t'}, L.Alike a a' → p.run L.options (Goal.read L.options fuel) s = .ok a t →
      L.Locked fuel (f a) (f' a') t t') : L.Locked fuel (p >>= f) (p' >>= f') s s' := by
  unfold Locked
  rw [run_bind, run_bind]
  exact Agree.bind hp fun _ _ _ _ h hr => hf h hr

theorem bind {f f' : α → Phrase β} (hp : L.Locked fuel p p' s s')
    (hf : ∀ {a a' t t'}, L.Alike a a' → L.Locked fuel (f a) (f' a') t t') :
    L.Locked fuel (p >>= f) (p' >>= f') s s' := hp.bindRun fun h _ => hf h

theorem map {f f' : α → β} (hp : L.Locked fuel p p' s s')
    (hf : ∀ {a a'}, L.Alike a a' → L.Alike (f a) (f' a')) :
    L.Locked fuel (f <$> p) (f' <$> p') s s' := by
  rw [map_eq_pure_bind, map_eq_pure_bind]
  exact hp.bind fun ha => pure (hf ha)

theorem ite {c : Prop} [Decidable c] (hp : c → L.Locked fuel p p' s s')
    (hq : ¬c → L.Locked fuel q q' s s') :
    L.Locked fuel (if c then p else q) (if c then p' else q') s s' := by
  split
  · exact hp ‹_›
  · exact hq ‹_›

/-- The kind of the current token is the same, and it is known from then on. -/
theorem kind {f f' : TokenKind → Phrase β}
    (hf : ∀ k, s.cursor.kind = k → L.Locked fuel (f k) (f' k) s s') :
    L.Locked fuel (Phrase.kind >>= f) (Phrase.kind >>= f') s s' := by
  intro hs
  have h := hf s.cursor.kind rfl hs
  show L.Ends ((f s.cursor.kind).run _ _ s) ((f' s'.cursor.kind).run _ _ s')
  rwa [← L.kind_eq hs]

theorem nextKind {f f' : TokenKind → Phrase β} (hk : s.cursor.kind ≠ .eof)
    (hf : ∀ k, s.cursor.kindAhead 1 = k → L.Locked fuel (f k) (f' k) s s') :
    L.Locked fuel (Phrase.nextKind >>= f) (Phrase.nextKind >>= f') s s' := by
  intro hs
  have h := hf (s.cursor.kindAhead 1) rfl hs
  show L.Ends ((f (s.cursor.kindAhead 1)).run _ _ s) ((f' (s'.cursor.kindAhead 1)).run _ _ s')
  rwa [← L.next_eq hs hk]

/-- The kinds of two tokens, the second of no matter if the input ends at the first. -/
theorem kindAndNext {f f' : TokenKind → TokenKind → Phrase β}
    (hend : ∀ n n', s.cursor.kind = .eof → L.Locked fuel (f .eof n) (f' .eof n') s s')
    (hf : ∀ k n, s.cursor.kind = k → s.cursor.kindAhead 1 = n → k ≠ .eof →
      L.Locked fuel (f k n) (f' k n) s s') :
    L.Locked fuel (Phrase.kind >>= fun k => Phrase.nextKind >>= f k)
      (Phrase.kind >>= fun k => Phrase.nextKind >>= f' k) s s' := by
  by_cases hk : s.cursor.kind = .eof
  · exact kind fun k hc hs => by
      obtain rfl := hk.symm.trans hc
      exact hend (s.cursor.kindAhead 1) (s'.cursor.kindAhead 1) hk hs
  · exact kind fun k hc => nextKind hk fun n hn => hf k n hc hn (hc ▸ hk)

theorem allowsStructLiterals {f f' : Bool → Phrase β}
    (hf : ∀ b, L.Locked fuel (f b) (f' b) s s') :
    L.Locked fuel (Phrase.allowsStructLiterals >>= f) (Phrase.allowsStructLiterals >>= f') s s' := by
  intro hs
  have h := hf s.structLiterals hs
  show L.Ends ((f s.structLiterals).run _ _ s) ((f' s'.structLiterals).run _ _ s')
  rwa [← L.literals_eq hs]

/-- The current token, where the input does not end. -/
theorem current {f f' : Token → Phrase β} (hk : s.cursor.kind ≠ .eof)
    (hf : ∀ {t t'}, L.Alike t t' → L.Locked fuel (f t) (f' t') s s') :
    L.Locked fuel (Phrase.current >>= f) (Phrase.current >>= f') s s' := by
  intro hs
  obtain ⟨t, t', ht, ht', halike, -⟩ := L.take hs hk
  rw [run_current ht, run_current ht']
  exact hf halike hs

/-- The current token, or the end of the input, where neither reading gets any further. -/
theorem currentOrEnd {f f' : Token → Phrase β} {x : String}
    (hf : ∀ {t t'}, s.cursor.kind = t.kind → L.Alike t t' → L.Locked fuel (f t) (f' t') s s')
    (hend : ∀ t, s.cursor.ahead? 0 = some t → t.kind = .eof →
      (Phrase.current >>= f).Refuses L.options fuel x s)
    (hend' : L.states s s' → ∀ t, s'.cursor.ahead? 0 = some t → t.kind = .eof →
      (Phrase.current >>= f').Refuses L.options' fuel x s') :
    L.Locked fuel (Phrase.current >>= f) (Phrase.current >>= f') s s' := by
  intro hs
  have hcurrent := L.current hs
  match ht : s.cursor.ahead? 0, ht' : s'.cursor.ahead? 0 with
  | none, none =>
    rw [run_current_of_none ht, run_current_of_none ht']
    exact ⟨L.unexpected "a token" hs, hs⟩
  | some t, some t' =>
    have hkind := Cursor.kind_of_ahead? ht
    have hkind' := Cursor.kind_of_ahead? ht'
    rw [ht, ht'] at hcurrent
    rcases hcurrent with h | ⟨hk, herrors⟩
    · rw [run_current ht, run_current ht']
      exact hf hkind h.of_some hs
    · rw [hend t ht (hkind ▸ hk), hend' hs t' ht' (hkind' ▸ L.kind_eq hs ▸ hk)]
      exact ⟨herrors x x fun _ => rfl, hs⟩
  | some t, none =>
    rw [ht, ht'] at hcurrent
    obtain ⟨hk, herrors⟩ := hcurrent.resolve_left nofun
    rw [hend t ht (Cursor.kind_of_ahead? ht ▸ hk), run_current_of_none ht']
    exact ⟨herrors x "a token" nofun, hs⟩
  | none, some t' =>
    rw [ht, ht'] at hcurrent
    obtain ⟨hk, herrors⟩ := hcurrent.resolve_left nofun
    rw [run_current_of_none ht, hend' hs t' ht' (Cursor.kind_of_ahead? ht' ▸ L.kind_eq hs ▸ hk)]
    exact ⟨herrors "a token" x nofun, hs⟩

theorem take (hk : s.cursor.kind ≠ .eof) : L.Locked fuel Phrase.take Phrase.take s s' := by
  intro hs
  obtain ⟨t, t', ht, ht', halike, hadvance⟩ := L.take hs hk
  rw [run_take ht, run_take ht']
  exact ⟨halike, hadvance⟩

theorem spanFrom {start start' : Span} (h : L.Alike start start') :
    L.Locked fuel (Phrase.spanFrom start) (Phrase.spanFrom start') s s' :=
  fun hs => ⟨L.spanFrom hs h, hs⟩

theorem position (hk : s.cursor.kind ≠ .eof) :
    L.Locked fuel Phrase.position Phrase.position s s' := by
  intro hs
  obtain ⟨t, t', ht, ht', halike, -⟩ := L.take hs hk
  have hposition : L.Alike s.cursor.position s'.cursor.position := by
    rw [Cursor.position_of_ahead? ht, Cursor.position_of_ahead? ht']
    exact halike.span.start
  exact ⟨hposition, hs⟩

theorem declare {symbol symbol' : Symbol} {place place' : Position}
    (h : L.states s s' → L.states { s with toNames := s.declare symbol place }
      { s' with toNames := s'.declare symbol' place' }) :
    L.Locked fuel (Phrase.declare symbol place) (Phrase.declare symbol' place') s s' :=
  fun hs => ⟨rfl, h hs⟩

theorem bindPattern {p p' : Pattern} {a a' : Option Ty} (hp : L.Alike p p') (ha : L.Alike a a') :
    L.Locked fuel (Grammar.bindPattern p a) (Grammar.bindPattern p' a') s s' := by
  intro hs
  rw [Grammar.bindPattern, Grammar.bindPattern, run_bindAll, run_bindAll]
  exact ⟨rfl, L.bindPattern hs hp ha⟩

theorem eat (hk : k ≠ .eof) : L.Locked fuel (Phrase.eat k) (Phrase.eat k) s s' :=
  kind fun _ hc => .ite (fun h => (take (hc ▸ h ▸ hk)).bind fun _ => pure rfl) fun _ => pure rfl

theorem ifEat (hk : k ≠ .eof) (hp : ∀ {s s'}, L.Locked fuel p p' s s')
    (hq : ∀ {s s'}, L.Locked fuel q q' s s') :
    L.Locked fuel (Phrase.eat k >>= fun eaten => if eaten then p else q)
      (Phrase.eat k >>= fun eaten => if eaten then p' else q') s s' :=
  (eat hk).bind fun {eaten eaten'} _ _ h => by
    obtain rfl : eaten = eaten' := h
    exact ite (fun _ => hp) fun _ => hq

theorem expect (hk : k ≠ .eof) : L.Locked fuel (Phrase.expect k) (Phrase.expect k) s s' :=
  kind fun _ hc => .ite (fun h => take (hc ▸ h ▸ hk)) fun _ => fail

theorem expectOneOf {ks : List TokenKind} {expected : String} (hks : .eof ∉ ks) :
    L.Locked fuel (Phrase.expectOneOf ks expected) (Phrase.expectOneOf ks expected) s s' := by
  intro hs
  by_cases hk : s.cursor.kind ∈ ks
  · obtain ⟨t, t', ht, ht', halike, hadvance⟩ := L.take hs fun h => hks (h ▸ hk)
    rw [run_expectOneOf ht (Cursor.kind_of_ahead? ht ▸ hk), run_expectOneOf ht'
      (Cursor.kind_of_ahead? ht' ▸ L.kind_eq hs ▸ hk)]
    exact ⟨halike, hadvance⟩
  · rw [run_expectOneOf_of_not hk, run_expectOneOf_of_not (L.kind_eq hs ▸ hk)]
    exact ⟨L.unexpected expected hs, hs⟩

theorem after? (hk : k ≠ .eof) (hp : ∀ {s s'}, L.Locked fuel p p s s') :
    L.Locked fuel (Phrase.after? k p) (Phrase.after? k p) s s' :=
  ifEat hk (map hp .some) (pure .none)

theorem inScope (hp : ∀ {s s'}, L.Locked fuel p p' s s') :
    L.Locked fuel (Phrase.inScope p) (Phrase.inScope p') s s' := by
  unfold Locked
  rw [run_inScope, run_inScope]
  exact Agree.between hp L.push L.pop (fun _ => rfl) fun _ => rfl

theorem withStructLiterals {allowed : Bool} (hp : ∀ {s s'}, L.Locked fuel p p' s s') :
    L.Locked fuel (Phrase.withStructLiterals allowed p) (Phrase.withStructLiterals allowed p') s s' := by
  intro hs
  rw [run_withStructLiterals, run_withStructLiterals]
  refine Agree.between hp (L.setLiterals allowed) (fun ht => ?_) (fun _ => rfl) (fun _ => rfl) hs
  rw [← L.literals_eq hs]
  exact L.setLiterals _ ht

/-- A loop, with what holds before every round. -/
theorem repeatedWith {round : Phrase (Option α)} {I : ParseState → Prop}
    (htake : ∀ options, round.TakesOrLeaves options)
    (hI : ∀ s a t, I s → round.run L.options (Goal.read L.options fuel) s = .ok (some a) t → I t)
    (hr : ∀ {s s'}, I s → L.Locked fuel round round s s') (hs : I s) :
    L.Locked fuel (Phrase.repeated round) (Phrase.repeated round) s s' := by
  unfold Locked
  rw [run_repeated, run_repeated]
  exact Agree.many (htake _ fuel) (htake _ fuel) hI (fun _ _ => hr) hs

theorem repeated {round : Phrase (Option α)} (htake : ∀ options, round.TakesOrLeaves options)
    (hr : ∀ {s s'}, L.Locked fuel round round s s') :
    L.Locked fuel (Phrase.repeated round) (Phrase.repeated round) s s' :=
  repeatedWith (I := fun _ => True) htake (fun _ _ _ _ _ => trivial) (fun _ => hr) trivial

theorem untilKind (htake : ∀ options, p.Takes options)
    (hp : ∀ {s s'}, s.cursor.kind ≠ k → L.Locked fuel p p s s') :
    L.Locked fuel (Phrase.untilKind k p) (Phrase.untilKind k p) s s' :=
  repeated
    (fun options => .bind fun _ => .ite .pure_none (.of_takes (htake options).map))
    (kind fun _ hc => .ite (fun _ => pure .none) fun h => map (hp (hc ▸ h)) .some)

theorem eachAfter (hk : k ≠ .eof) (hp : ∀ {s s'}, L.Locked fuel p p s s') :
    L.Locked fuel (Phrase.eachAfter k p) (Phrase.eachAfter k p) s s' :=
  repeated (fun _ => .ifEat .pure_none) (after? hk hp)

theorem afterFirst (hp : ∀ {s s'}, L.Locked fuel p p s s') :
    L.Locked fuel (Phrase.afterFirst k p) (Phrase.afterFirst k p) s s' :=
  repeated (fun _ => .ifEat .pure_none) <| ifEat nofun
    (kind fun _ _ => .ite (fun _ => pure .none) fun _ => map hp .some) (pure .none)

theorem commaList (hp : ∀ {s s'}, L.Locked fuel p p s s') :
    L.Locked fuel (Phrase.commaList k p) (Phrase.commaList k p) s s' :=
  kind fun _ _ => .ite (fun _ => pure .nil) fun _ => hp.bind fun h =>
    (afterFirst hp).bind fun hs => pure (h.cons hs)

theorem referenceLayers {layer : Bool → α → Span → α} {spanOf : α → Span}
    (hk : s.cursor.kind ≠ .eof)
    (hlayer : ∀ {a a' span span'} m, L.Alike a a' → L.Alike span span' →
      L.Alike (layer m a span) (layer m a' span'))
    (hspan : ∀ {a a'}, L.Alike a a' → L.Alike (spanOf a) (spanOf a'))
    (hp : ∀ {s s'}, L.Locked fuel p p s s') :
    L.Locked fuel (Phrase.referenceLayers layer spanOf p) (Phrase.referenceLayers layer spanOf p)
      s s' := by
  refine .bind (take hk) fun {mark mark' _ _} hmark =>
    .bind (eat nofun) fun {mutable mutable' _ _} h => .bind hp fun ha => .pure ?_
  obtain rfl : mutable = mutable' := h
  have hto := hmark.span.span_to (hspan ha)
  have hinner := hlayer mutable ha hto
  rw [hmark.kind_eq]
  split
  · exact hlayer false hinner hto
  · exact hinner

end Locked

end Lockstep

end FrontEnd
