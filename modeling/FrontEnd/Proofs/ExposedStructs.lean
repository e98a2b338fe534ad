import FrontEnd.Proofs.ReadNodes
/-!
# Exposed struct literals

A brace after a path may open a struct literal or the block that a condition guards. Where a block
follows, no struct literal is read, unless brackets or a block shield it. So none is exposed there: no
operand leads to one.
-/
namespace FrontEnd

namespace Expr

/-- The parts of an expression that nothing shields: operands, what is called, indexed or asked for a
member, and the values of jumps. -/
def operands : Expr → List Expr
  | unary _ e _ | borrow _ e _ | deref e _ | cast e _ _ => [e]
  | binary _ _ e f _ | assign e f _ | compoundAssign _ e f _ => [e, f]
  | call e _ _ | methodCall e _ _ _ | field e _ _ | index e _ _ => [e]
  | breakLoop v _ | returnValue v _ => v.toList
  | _ => []

/-- The first expression is the second, or operands lead to it. -/
inductive ExposedIn : Expr → Expr → Prop
  | self (e : Expr) : ExposedIn e e
  | operand {m o e : Expr} (ho : o ∈ e.operands) (h : ExposedIn m o) : ExposedIn m e

def isStructLiteral : Expr → Bool
  | structLiteral _ _ _ => true
  | _ => false

/-- A struct literal is exposed in an expression. -/
def ExposesStruct (e : Expr) : Prop := ∃ m, ExposedIn m e ∧ m.isStructLiteral = true

theorem exposesStruct_iff {e : Expr} :
    e.ExposesStruct ↔ e.isStructLiteral = true ∨ ∃ o ∈ e.operands, o.ExposesStruct := by
  constructor
  · rintro ⟨m, hm, hstruct⟩
    cases hm with
    | self => exact .inl hstruct
    | operand ho h => exact .inr ⟨_, ho, m, h, hstruct⟩
  · rintro (h | ⟨o, ho, m, hm, hstruct⟩)
    · exact ⟨e, .self e, h⟩
    · exact ⟨m, .operand ho hm, hstruct⟩

theorem not_exposesStruct {e : Expr} (he : e.isStructLiteral = false)
    (ho : ∀ o ∈ e.operands, ¬o.ExposesStruct) : ¬e.ExposesStruct := by
  rw [exposesStruct_iff]
  rintro (h | ⟨o, hmem, h⟩)
  · cases he.symm.trans h
  · exact ho o hmem h

end Expr

/-- Where the block of an `if`, a `while` or a `match` follows, no struct literal is exposed. -/
def Node.HidesStructs : Node → Prop
  | condition (.expr e) => ¬e.ExposesStruct
  | condition (.letChain links) => ∀ l ∈ links, ¬l.value.ExposesStruct
  | expr (.matching scrutinee _ _) => ¬scrutinee.ExposesStruct
  | _ => True

namespace Suffix

def operands : Suffix → List Expr
  | binary _ e | assign e | compoundAssign _ e => [e]
  | _ => []

theorem operands_attach (s : Suffix) (e : Expr) : (s.attach e).operands = e :: s.operands := by
  cases s <;> rfl

theorem isStructLiteral_attach (s : Suffix) (e : Expr) : (s.attach e).isStructLiteral = false := by
  cases s <;> rfl

def ExposesStruct (s : Suffix) : Prop := ∃ o ∈ s.operands, o.ExposesStruct

theorem exposesStruct_attach {s : Suffix} {e : Expr} :
    (s.attach e).ExposesStruct ↔ e.ExposesStruct ∨ s.ExposesStruct := by
  rw [Expr.exposesStruct_iff, operands_attach, isStructLiteral_attach]
  simp [ExposesStruct]

theorem exposesStruct_foldl {ss : List Suffix} {e : Expr} :
    (ss.foldl attach e).ExposesStruct ↔ e.ExposesStruct ∨ ∃ s ∈ ss, s.ExposesStruct := by
  induction ss generalizing e with
  | nil => simp
  | cons s ss ih => simp [ih, exposesStruct_attach, or_assoc]

end Suffix

/-- The expressions of a form that nothing shields. -/
def Form.exposed : (σ : Form) → σ.Tree → List Expr
  | expr _, e | term, e => [e]
  | jumpValue, v => v.toList
  | suffix, s => s.operands
  | suffixes _, ss => ss.flatMap Suffix.operands
  | _, _ => []

variable {resolve : Bool} {σ : Form} {ℓ : Nat} {b : Bool} {x y : Place} {t : σ.Tree}

/-- Where struct literals are not allowed, none is exposed. -/
theorem Derives.not_exposesStruct (h : Derives resolve σ ℓ b x t y) (hb : b = false) :
    ∀ e ∈ σ.exposed t, ¬e.ExposesStruct := by
  have one {e : Expr} (he : e.isStructLiteral = false) (ho : ∀ o ∈ e.operands, ¬o.ExposesStruct) :
      ∀ m ∈ [e], ¬m.ExposesStruct :=
    List.forall_mem_singleton.2 (Expr.not_exposesStruct he ho)
  induction h with
  | expr he hs ihe ihs =>
    have hterm := List.forall_mem_singleton.1 (ihe hb)
    refine List.forall_mem_singleton.2 fun h => ?_
    obtain h | ⟨s, hs, o, ho, h⟩ := Suffix.exposesStruct_foldl.1 h
    · exact hterm h
    · exact ihs hb o (List.mem_flatMap.2 ⟨s, hs, ho⟩) h
  | suffixesCons h hτ hs hss ihs ihss => exact List.forall_mem_append.2 ⟨ihs hb, ihss hb⟩
  | sufBinary h hτ he ihe => exact ihe hb
  | sufAssign h he ihe => exact ihe hb
  | sufCompound h ht he ihe => exact ihe hb
  | jumpValue h ihe => exact ihe hb
  | termStruct hp ht hfs => cases hb
  | termUnary h he ihe => exact one rfl (ihe hb)
  | termDeref h he ihe => exact one rfl (ihe hb)
  | termBorrow h hm he ihm ihe => exact one rfl (ihe hb)
  | termBorrows h hm he ihm ihe => exact one rfl (one rfl (ihe hb))
  | termBreak h hv ihv => exact one rfl (ihv hb)
  | termReturn h hv ihv => exact one rfl (ihv hb)
  | termLiteral h => exact one rfl nofun
  | termPath hp hy => exact one rfl nofun
  | termGrouped h he hc => exact one rfl nofun
  | termEmptyArray h hc => exact one rfl nofun
  | termArray h he hes => exact one rfl nofun
  | termRepeat h he hs hl hc => exact one rfl nofun
  | termUnderscore h => exact one rfl nofun
  | termContinue h => exact one rfl nofun
  | termBlock h => exact one rfl nofun
  | termConst h hb => exact one rfl nofun
  | termIf h => exact one rfl nofun
  | termMatch h he ho has => exact one rfl nofun
  | termLoop h hb => exact one rfl nofun
  | termWhile h hc hb => exact one rfl nofun
  | _ => exact nofun

namespace Derives

theorem expr_hides {above : Tier} {e : Expr} (h : Derives resolve (.expr above) ℓ false x e y) :
    ¬e.ExposesStruct :=
  h.not_exposesStruct rfl e List.mem_cons_self

theorem link_hides {l : Link} (h : Derives resolve .link ℓ false x l y) : ¬l.value.ExposesStruct := by
  cases h with
  | linkTest hv => exact hv.expr_hides
  | linkOfLet h =>
    cases h with
    | linkLet _ _ _ hv => exact hv.expr_hides

theorem links_hide {ls : List Link} (h : Derives resolve (.eachAfter .andAnd .link) ℓ false x ls y) :
    ∀ l ∈ ls, ¬l.value.ExposesStruct := by
  induction ls generalizing x with
  | nil => exact nofun
  | cons l ls ih =>
    cases h with
    | eachCons _ _ hl hls => exact List.forall_mem_cons.2 ⟨hl.link_hides, ih hls⟩

theorem condition_hides {c : Condition} (h : Derives resolve .condition ℓ b x c y) :
    (Node.condition c).HidesStructs := by
  cases h with
  | condExpr he => exact he.expr_hides
  | condLet hl hls => exact List.forall_mem_cons.2 ⟨hl.linkOfLet.link_hides, hls.links_hide⟩

end Derives

theorem Expr.Chain.hidesStructs {e : Expr} (h : e.Chain resolve ℓ b x y) :
    (Node.expr e).HidesStructs := by
  cases h with
  | term h =>
    cases h with
    | termMatch _ he _ _ => exact he.expr_hides
    | _ => trivial
  | @attach _ s _ _ _ _ => cases s <;> trivial

theorem Node.Derived.hidesStructs {n : Node} (h : n.Derived resolve) : n.HidesStructs := by
  cases n with
  | condition c =>
    obtain ⟨ℓ, b, x, y, hd⟩ := h
    exact hd.condition_hides
  | expr e =>
    obtain ⟨ℓ, b, x, y, hc⟩ := h
    exact hc.hidesStructs
  | _ => trivial

end FrontEnd
