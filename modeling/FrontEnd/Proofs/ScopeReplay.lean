import FrontEnd.Proofs.ScopeEvents
import FrontEnd.Proofs.ReadNodes
/-!
# Reading does to the scopes what the tree says

What happens to the names while a tree is read is what happens in the tree: the events of the tree,
replayed after the reading, lead from the names before it to the names after it. Every pattern that
is just a name means at its turn in the replay what it was read as.
-/
namespace FrontEnd

namespace Names

/-- The names after an event. There are none if a pattern is not read as the name in it demands. -/
def after (resolve : Bool) (n : Names) : Event → Option Names
  | .opened => some n.push
  | .closed => some n.pop
  | .declared symbol position => some (n.declare symbol position)
  | .bound symbol => some (n.bind symbol)
  | .named name constant => if (resolve && n.isConstant name) = constant then some n else none

def replay (resolve : Bool) (n : Names) (events : List Event) : Option Names :=
  events.foldlM (after resolve) n

variable {resolve : Bool} {n : Names}

@[simp] theorem replay_nil : n.replay resolve [] = some n := rfl

@[simp] theorem replay_cons (e : Event) (es : List Event) :
    n.replay resolve (e :: es) = (n.after resolve e).bind fun n => n.replay resolve es := by
  simp [replay, List.foldlM_cons]

@[simp] theorem replay_append (es fs : List Event) :
    n.replay resolve (es ++ fs) = (n.replay resolve es).bind fun n => n.replay resolve fs := by
  simp [replay, List.foldlM_append]

@[simp] theorem replay_inScope (es : List Event) :
    n.replay resolve (Event.inScope es) = (n.push.replay resolve es).map Names.pop := by
  simp only [Event.inScope, replay_cons, replay_append, after, Option.bind_some, replay_nil]
  cases n.push.replay resolve es <;> rfl

@[simp] theorem replay_binds (p : Pattern) (ty : Option Ty) :
    n.replay resolve (Event.binds p ty) = some (n.bindAll (Symbol.ofPattern p ty)) := by
  rw [Event.binds_eq, bindAll]
  induction Symbol.ofPattern p ty generalizing n <;> simp_all [after]

end Names

/-- Parts in which nothing happens. -/
@[simp] theorem Event.flatMap_nil {α : Type} (as : List α) :
    (as.flatMap fun _ => ([] : List Event)) = [] :=
  List.flatMap_eq_nil_iff.2 fun _ _ => rfl

attribute [local simp] Form.events Suffix.events itemEvents Names.after Event.ofItem Event.ofMember
  Event.ofParam Event.ofSelf

attribute [local simp] Pattern.events Ty.events Expr.events FieldValue.events Block.events
  blockEvents? Condition.events Link.events Conditional.events Otherwise.events Arm.events
  Stmt.events stmtEvents TypedName.events SelfParam.events selfEvents? FunctionDecl.events
  ConstantDecl.events Member.events memberEvents Item.events

attribute [local simp] patternEvents_eq tyEvents_eq tyEvents?_eq exprEvents_eq exprEvents?_eq
  fieldEvents_eq linkEvents_eq armEvents_eq typedNameEvents_eq paramEvents_eq Suffix.events_foldl

namespace Derives

variable {resolve : Bool} {ℓ : Nat} {b : Bool} {x y z : Place}

/-- A pattern that is a path of one name was read as such because the name means a constant. -/
theorem replay_path {p : Path} (hx : x.StartsPath resolve) (hp : Derives resolve .path ℓ b x p y)
    (hy : y.kind ≠ .openParen) (hn : x.names = y.names) :
    x.names.replay resolve (Pattern.path p).events = some y.names := by
  cases hp with
  | path ht hts =>
    cases hts with
    | eachNil _ hk =>
      simp only [Place.StartsPath, Place.NamesConstant, Place.kind_mk, Place.nextKind_mk,
        kindAt_zero, kindAt_succ] at hx hk hy
      simp only [Pattern.events]
      split <;> simp_all
    | eachCons => simpa using hn

/-- A pattern that is just a name was read as such because the name means no constant. -/
theorem replay_binding {byRef mutable : Bool} {t : Token} {i : List Token} {n : Names}
    {sub : Option Pattern} {sp : Span} (hx : x.StartsBinding resolve)
    (hr : Derives resolve (.flag .kwRef) ℓ b x byRef y)
    (hm : Derives resolve (.flag .kwMut) ℓ b y mutable ⟨t :: i, n⟩) (ht : t.kind = .identifier)
    (hs : Derives resolve (.after .atSign .pattern) ℓ b ⟨i, n⟩ sub z)
    (ihs : n.replay resolve (sub.toList.flatMap Pattern.events) = some z.names) :
    x.names.replay resolve (Pattern.identifier t byRef mutable sub sp).events = some z.names := by
  cases hs with
  | afterSome _ _ ha => cases hr <;> cases hm <;> simp_all
  | afterNothing _ hk =>
    cases hr <;> cases hm <;> simp_all [Place.StartsBinding, Place.NamesConstant]

/-- The events of a derived tree lead from the names before it to the names after it. -/
theorem replay {σ : Form} {t : σ.Tree} (h : Derives resolve σ ℓ b x t y) :
    x.names.replay resolve (σ.events t) = some y.names := by
  induction h with
  | patBinding hx hr hm ht hs ihr ihm ihs => exact replay_binding hx hr hm ht hs ihs
  | patPath hx hp hy ihp => exact replay_path hx hp hy (by simpa using ihp)
  -- elsewhere the events of a tree are those of its parts, and at most one more
  | _ => simp_all [-List.append_assoc]

end Derives

end FrontEnd
