import FrontEnd.Proofs.PrintedNodes
/-!
# Blocks, branches and items are read back

A block is read back from its statements, an item from its members. Where a part may be left out, or
where parts of different sorts follow each other, the heads of the parts tell which is which.
-/
namespace FrontEnd

open Lexeme (kindOf)
open Sexpr (headed Reading Readable reading)

variable {t : Token} {p : Path} {sp : Span}

def FieldValue.sexpr (f : FieldValue) : Sexpr := headed f.name.value [f.value.sexpr]

def Link.sexpr : Link → Sexpr
  | ⟨none, value, _⟩ => value.sexpr
  | ⟨some pattern, value, _⟩ => headed "let" [pattern.sexpr, value.sexpr]

def Arm.sexpr (a : Arm) : Sexpr :=
  headed "arm" (a.pattern.sexpr :: guardSexpr? a.guard ++ [a.body.sexpr])

def TypedName.sexpr (n : TypedName) : Sexpr := headed n.name.value [n.ty.sexpr]

def SelfParam.sexpr (s : SelfParam) : Sexpr := .list (selfWords s.byRef s.mutable ++ tySexpr? s.ty)

def Member.sexpr : Member → Sexpr
  | .constant c => c.sexpr
  | .function f => f.sexpr

theorem fieldSexprs_eq_map (fs : List FieldValue) : fieldSexprs fs = fs.map FieldValue.sexpr := by
  induction fs with
  | nil => rfl
  | cons f fs ih =>
    obtain ⟨name, value, shorthand⟩ := f
    rw [fieldSexprs, ih, List.map_cons]
    rfl

theorem linkSexprs_eq_map (ls : List Link) : linkSexprs ls = ls.map Link.sexpr := by
  induction ls with
  | nil => rfl
  | cons l ls ih =>
    obtain ⟨pattern, value, span⟩ := l
    cases pattern <;> rw [linkSexprs, ih, List.map_cons] <;> rfl

theorem armSexprs_eq_map (as : List Arm) : armSexprs as = as.map Arm.sexpr := by
  induction as with
  | nil => rfl
  | cons a as ih =>
    obtain ⟨pattern, guard, body, span⟩ := a
    rw [armSexprs, ih, List.map_cons]
    rfl

theorem stmtSexprs_eq_map (ss : List Stmt) : stmtSexprs ss = ss.map Stmt.sexpr := by
  induction ss with
  | nil => rfl
  | cons s ss ih => rw [stmtSexprs, ih, List.map_cons]

theorem typedNameSexprs_eq_map (ns : List TypedName) :
    typedNameSexprs ns = ns.map TypedName.sexpr := by
  induction ns with
  | nil => rfl
  | cons n ns ih =>
    obtain ⟨name, ty, span⟩ := n
    rw [typedNameSexprs, ih, List.map_cons]
    rfl

theorem memberSexprs_eq_map (ms : List Member) : memberSexprs ms = ms.map Member.sexpr := by
  induction ms with
  | nil => rfl
  | cons m ms ih => cases m <;> rw [memberSexprs, ih, List.map_cons] <;> rfl

theorem exprSexpr?_eq_map (v : Option Expr) : exprSexpr? v = v.toList.map Expr.sexpr := by
  cases v <;> rfl

theorem tySexpr?_eq_map (a : Option Ty) : tySexpr? a = a.toList.map Ty.sexpr := by
  cases a <;> rfl

theorem selfSexpr?_eq_map (s : Option SelfParam) : selfSexpr? s = s.toList.map SelfParam.sexpr := by
  obtain _ | ⟨byRef, mutable, ty, span⟩ := s <;> rfl

theorem resultSexpr?_eq_map (r : Option Ty) :
    resultSexpr? r = r.toList.map fun a => headed "->" [a.sexpr] := by
  cases r <;> rfl

theorem blockSexpr?_eq_map (b : Option Block) : blockSexpr? b = b.toList.map Block.sexpr := by
  cases b <;> rfl

/-- What is read from the first of some s-expressions. -/
theorem Sexpr.head?_reading {α β : Type} {f : α → Sexpr} {g : Reading → β} {k : α → β} {a : Option α}
    (h : ∀ x ∈ a, g (f x).reading = k x) :
    ((a.toList.map f).map reading).head?.map g = a.map k := by
  cases a with
  | none => rfl
  | some x => exact congrArg some (h x rfl)

structure FieldValue.Printed (f : FieldValue) : Prop where
  readable : f.sexpr.Readable
  field : f.sexpr.reading.field = f.shown

structure Condition.Printed (c : Condition) : Prop where
  readable : c.sexpr.Readable
  condition : c.sexpr.reading.condition = c.shown

structure Link.Printed (l : Link) : Prop where
  readable : l.sexpr.Readable
  link : l.sexpr.reading.link = l.shown

structure Arm.Printed (a : Arm) : Prop where
  readable : a.sexpr.Readable
  arm : a.sexpr.reading.arm = a.shown

theorem FieldValue.printed {e : Expr} {shorthand : Bool} (h : t.Spelt) (hk : t.kind = .identifier)
    (he : e.Printed) : (FieldValue.mk t e shorthand).Printed := by
  refine ⟨.headed (h.isWord (by simp [hk])) (by simpa using he.readable), ?_⟩
  rw [FieldValue.sexpr, Sexpr.reading_headed, FieldValue.shown, ← he.expr, h.ofText_eq]
  rfl

theorem Condition.Printed.expr {e : Expr} (he : e.Printed) : (Condition.expr e).Printed :=
  ⟨he.readable, he.condition⟩

theorem Condition.Printed.letChain {ls : List Link} (hls : ∀ l ∈ ls, l.Printed) :
    (Condition.letChain ls).Printed := by
  have hsexpr : (Condition.letChain ls).sexpr = headed "let-chain" (ls.map Link.sexpr) := by
    rw [Condition.sexpr, linkSexprs_eq_map]
  refine ⟨?_, ?_⟩
  · rw [hsexpr]
    exact .headed (isWord_of (by decide)) (by simpa using fun l hl => (hls l hl).readable)
  · rw [hsexpr, Sexpr.reading_headed, Condition.shown, linkShowns_eq_map,
      ← Sexpr.map_reading fun l hl => (hls l hl).link]
    rfl

theorem Link.Printed.test {e : Expr} (he : e.Printed) : (Link.mk none e sp).Printed :=
  ⟨he.readable, he.link⟩

theorem Link.Printed.binding {q : Pattern} {e : Expr} (hq : q.Printed) (he : e.Printed) :
    (Link.mk (some q) e sp).Printed := by
  refine ⟨.headed (isWord_of (by decide)) (by simpa using ⟨hq.readable, he.readable⟩), ?_⟩
  rw [Link.shown, patternShown?, ← hq.pattern, ← he.expr]
  rfl

theorem Arm.printed {q : Pattern} {g : Option Expr} {e : Expr} (hq : q.Printed)
    (hg : ∀ e ∈ g, e.Printed) (he : e.Printed) : (Arm.mk q g e sp).Printed := by
  cases g with
  | none =>
    refine ⟨.headed (isWord_of (by decide)) ?_, ?_⟩
    · simpa [guardSexpr?] using ⟨hq.readable, he.readable⟩
    · rw [Arm.shown, ← hq.pattern, ← he.expr]
      rfl
  | some guard =>
    have hguard : (headed "if" [guard.sexpr]).Readable :=
      .headed (isWord_of (by decide)) (by simpa using (hg guard rfl).readable)
    refine ⟨.headed (isWord_of (by decide)) ?_, ?_⟩
    · simpa [guardSexpr?] using ⟨hq.readable, hguard, he.readable⟩
    · rw [Arm.shown, exprShown?, ← hq.pattern, ← he.expr, ← (hg guard rfl).expr]
      rfl

/-- A statement that is read back. In a block it is not taken for the value, and in a function the
block in which it stands alone is not taken for a parameter. -/
structure Stmt.Printed (s : Stmt) : Prop where
  readable : s.sexpr.Readable
  stmt : s.sexpr.reading.stmt = s.shown
  tail : s.sexpr.reading.tail? = none
  isType : s.sexpr.reading.isType = false

/-- A block that is read back, as an expression and as the body of a function. -/
structure Block.Printed (b : Block) : Prop where
  expr : (Expr.block b).Printed
  part : b.sexpr.reading.part = .body b.shown

structure Otherwise.Printed (o : Otherwise) : Prop where
  readable : ∀ s ∈ o.sexprs, s.Readable
  otherwise : ((o.sexprs.map reading).head?.map Reading.otherwise).getD .nothing = o.shown

theorem Block.Printed.block {b : Block} (h : b.Printed) : b.sexpr.reading.block = b.shown := by
  have hexpr : b.sexpr.reading.expr = .block b.shown := h.expr.expr
  rw [Reading.block, hexpr]

section

variable {ss : List Stmt} {v : Option Expr} (hss : ∀ s ∈ ss, s.Printed) (hv : ∀ e ∈ v, e.Printed)
include hss hv

theorem Sexpr.blockOf_eq : Sexpr.blockOf ((stmtSexprs ss ++ tailSexpr? v).map reading) =
    (Block.mk ss v sp).shown := by
  have hnone : ∀ r ∈ (ss.map Stmt.sexpr).map reading, r.tail? = none := by
    simpa using fun s hs => (hss s hs).tail
  have hstmts : ((ss.map Stmt.sexpr).map reading).map Reading.stmt = ss.map Stmt.shown :=
    Sexpr.map_reading fun s hs => (hss s hs).stmt
  have hfilter : ((ss.map Stmt.sexpr).map reading).filter (·.tail?.isNone) =
      (ss.map Stmt.sexpr).map reading :=
    List.filter_eq_self.mpr fun r hr => by rw [hnone r hr]; rfl
  have hfind : ((ss.map Stmt.sexpr).map reading).findSome? Reading.tail? = none :=
    List.findSome?_eq_none_iff.mpr hnone
  rw [Sexpr.blockOf, stmtSexprs_eq_map, List.map_append, List.filter_append, List.findSome?_append,
    hfilter, hfind, List.map_append, hstmts, Block.shown, stmtShowns_eq_map]
  cases v with
  | none => simp [tailSexpr?, exprShown?]
  | some e =>
    have htail : (headed "tail" [e.sexpr]).reading.tail? = some e.shown :=
      congrArg some (hv e rfl).expr
    simp [tailSexpr?, exprShown?, htail]

theorem Block.printed : (Block.mk ss v sp).Printed := by
  have hsexpr : (Block.mk ss v sp).sexpr = headed "block" (stmtSexprs ss ++ tailSexpr? v) := by
    rw [Block.sexpr]
  have hreadable : ∀ s ∈ stmtSexprs ss ++ tailSexpr? v, s.Readable := by
    refine List.forall_mem_append.mpr ⟨?_, ?_⟩
    · rw [stmtSexprs_eq_map]
      simpa using fun s hs => (hss s hs).readable
    · cases v with
      | none => exact nofun
      | some e =>
        have he : (headed "tail" [e.sexpr]).Readable :=
          .headed (isWord_of (by decide)) (by simpa using (hv e rfl).readable)
        simpa [tailSexpr?] using he
  have htypes : ((stmtSexprs ss ++ tailSexpr? v).map reading).any Reading.isType = false := by
    rw [stmtSexprs_eq_map, List.map_append, List.any_append, Bool.or_eq_false_iff]
    refine ⟨by simpa using fun s hs => (hss s hs).isType, ?_⟩
    cases v <;> rfl
  refine ⟨.of_headed (by rw [Expr.sexpr, hsexpr]) (isWord_of (by decide)) (by decide) hreadable ?_
    fun _ => ⟨rfl, by decide, by decide⟩, ?_⟩
  · rw [Expr.shown, ← Sexpr.blockOf_eq hss hv]
    rfl
  · rw [hsexpr, Sexpr.reading_headed, ← Sexpr.blockOf_eq hss hv]
    exact if_pos ⟨rfl, by rw [htypes]; decide⟩

end

namespace Otherwise.Printed

theorem nothing : Otherwise.nothing.Printed := ⟨nofun, rfl⟩

theorem conditional {c : Conditional} (h : (Expr.conditional c).Printed) :
    (Otherwise.conditional c).Printed := by
  refine ⟨List.forall_mem_singleton.mpr h.readable, ?_⟩
  have hexpr : c.sexpr.reading.expr = .conditional c.shown := h.expr
  change c.sexpr.reading.otherwise = .conditional c.shown
  rw [Reading.otherwise, hexpr]

theorem block {b : Block} (h : b.Printed) : (Otherwise.block b).Printed := by
  refine ⟨List.forall_mem_singleton.mpr h.expr.readable, ?_⟩
  have hexpr : b.sexpr.reading.expr = .block b.shown := h.expr.expr
  change b.sexpr.reading.otherwise = .block b.shown
  rw [Reading.otherwise, hexpr]

end Otherwise.Printed

namespace Expr.Printed

theorem breakLoop {v : Option Expr} (hv : ∀ e ∈ v, e.Printed) : (Expr.breakLoop v sp).Printed := by
  refine of_headed (by rw [Expr.sexpr, exprSexpr?_eq_map]) (isWord_of (by decide)) (by decide)
    (by simpa using fun e he => (hv e he).readable) ?_ nofun
  rw [Expr.shown, exprShown?_eq_map, ← Sexpr.head?_reading fun e he => (hv e he).expr]
  rfl

theorem returnValue {v : Option Expr} (hv : ∀ e ∈ v, e.Printed) :
    (Expr.returnValue v sp).Printed := by
  refine of_headed (by rw [Expr.sexpr, exprSexpr?_eq_map]) (isWord_of (by decide)) (by decide)
    (by simpa using fun e he => (hv e he).readable) ?_ nofun
  rw [Expr.shown, exprShown?_eq_map, ← Sexpr.head?_reading fun e he => (hv e he).expr]
  rfl

theorem structLiteral {fs : List FieldValue} (h : p.Spelt) (hfs : ∀ f ∈ fs, f.Printed) :
    (Expr.structLiteral p fs sp).Printed := by
  have hpath : p.sexpr.reading.path = p.bare := h.ofText_eq
  have hp : p.sexpr.Readable := .atom h.isWord
  refine of_headed (by rw [Expr.sexpr, fieldSexprs_eq_map]) (isWord_of (by decide)) (by decide)
    (List.forall_mem_cons.mpr ⟨hp, by simpa using fun f hf => (hfs f hf).readable⟩) ?_ nofun
  rw [Expr.shown, fieldShowns_eq_map, ← hpath, ← Sexpr.map_reading fun f hf => (hfs f hf).field]
  rfl

theorem constBlock {b : Block} (h : b.Printed) : (Expr.constBlock b sp).Printed := by
  refine of_headed rfl (isWord_of (by decide)) (by decide)
    (List.forall_mem_singleton.mpr h.expr.readable) ?_ fun _ => ⟨rfl, by decide, by decide⟩
  rw [Expr.shown, ← h.block]
  rfl

theorem loop {b : Block} (h : b.Printed) : (Expr.loop b sp).Printed := by
  refine of_headed rfl (isWord_of (by decide)) (by decide)
    (List.forall_mem_singleton.mpr h.expr.readable) ?_ fun _ => ⟨rfl, by decide, by decide⟩
  rw [Expr.shown, ← h.block]
  rfl

theorem whileLoop {c : Condition} {b : Block} (hc : c.Printed) (h : b.Printed) :
    (Expr.whileLoop c b sp).Printed := by
  refine of_headed rfl (isWord_of (by decide)) (by decide)
    (by simpa using ⟨hc.readable, h.expr.readable⟩) ?_ fun _ => ⟨rfl, by decide, by decide⟩
  rw [Expr.shown, ← h.block, ← hc.condition]
  rfl

theorem conditional {c : Condition} {b : Block} {o : Otherwise} (hc : c.Printed) (h : b.Printed)
    (ho : o.Printed) : (Expr.conditional ⟨c, b, o, sp⟩).Printed := by
  have hsexpr : (Expr.conditional ⟨c, b, o, sp⟩).sexpr =
      headed "if" (c.sexpr :: b.sexpr :: o.sexprs) := rfl
  refine of_headed hsexpr (isWord_of (by decide)) (by decide) ?_ ?_
    fun _ => ⟨rfl, by decide, by decide⟩
  · exact List.forall_mem_cons.mpr ⟨hc.readable,
      List.forall_mem_cons.mpr ⟨h.expr.readable, ho.readable⟩⟩
  · rw [Expr.shown, Conditional.shown, ← h.block, ← hc.condition, ← ho.otherwise]
    rfl

theorem matching {e : Expr} {as : List Arm} (he : e.Printed) (has : ∀ a ∈ as, a.Printed) :
    (Expr.matching e as sp).Printed := by
  refine of_headed (by rw [Expr.sexpr, armSexprs_eq_map]) (isWord_of (by decide)) (by decide)
    (List.forall_mem_cons.mpr ⟨he.readable, by simpa using fun a ha => (has a ha).readable⟩) ?_
    fun _ => ⟨rfl, by decide, by decide⟩
  rw [Expr.shown, armShowns_eq_map, ← he.expr, ← Sexpr.map_reading fun a ha => (has a ha).arm]
  rfl

end Expr.Printed

namespace Stmt.Printed

theorem empty : (Stmt.empty sp).Printed := ⟨.atom (isWord_of (by decide)), rfl, rfl, rfl⟩

theorem expr {e : Expr} (he : e.Printed) : (Stmt.expr e true sp).Printed := by
  refine ⟨.headed (isWord_of (by decide)) (by simpa using he.readable), ?_, rfl, rfl⟩
  rw [Stmt.shown, ← he.expr]
  rfl

theorem blockLike {e : Expr} (he : e.Printed) (hb : e.isBlockLike = true) :
    (Stmt.expr e false sp).Printed :=
  ⟨he.readable, (he.stmt hb).1, he.tail, (he.stmt hb).2⟩

theorem letBinding {q : Pattern} {a : Option Ty} {v : Option Expr} (hq : q.Printed)
    (ha : ∀ b ∈ a, b.Printed) (hv : ∀ e ∈ v, e.Printed) :
    (Stmt.letBinding q a v sp).Printed := by
  have hparts : ∀ s ∈ q.sexpr :: annotationSexprs a ++ exprSexpr? v, s.Readable := by
    have hcolon : (Sexpr.atom ":").Readable := .atom (isWord_of (by decide))
    cases a <;> cases v <;> simp [annotationSexprs, exprSexpr?, hq.readable, hcolon] at ha hv ⊢
    · exact hv.readable
    · exact ha.readable
    · exact ⟨ha.readable, hv.readable⟩
  refine ⟨.headed (isWord_of (by decide)) hparts, ?_, rfl, rfl⟩
  rw [Stmt.shown, ← hq.pattern]
  cases a with
  | none =>
    cases v with
    | none => rfl
    | some e =>
      rw [exprShown?, ← (hv e rfl).expr]
      rfl
  | some b =>
    rw [tyShown?, ← (ha b rfl).ty]
    cases v with
    | none => rfl
    | some e =>
      rw [exprShown?, ← (hv e rfl).expr]
      rfl

end Stmt.Printed

structure TypedName.Printed (n : TypedName) : Prop where
  readable : n.sexpr.Readable
  typedName : n.sexpr.reading.typedName = n.shown
  part : n.sexpr.reading.part = .param n.shown

structure SelfParam.Printed (s : SelfParam) : Prop where
  readable : s.sexpr.Readable
  part : s.sexpr.reading.part = .selfParam s.shown

theorem TypedName.printed {a : Ty} (h : t.Spelt) (hk : t.kind = .identifier) (ha : a.Printed) :
    (TypedName.mk t a sp).Printed := by
  have hshown : (TypedName.mk t a sp).shown = ⟨.ofText t.value, a.sexpr.reading.ty, .nowhere⟩ := by
    rw [TypedName.shown, h.ofText_eq, ha.ty]
  refine ⟨.headed (h.isWord (by simp [hk])) (by simpa using ha.readable), ?_, ?_⟩
  · rw [hshown]
    rfl
  · obtain ⟨c, cs, heq, hc, -⟩ := h.pathSegment (by simp [hk, Grammar.pathSegments])
    have hmark : t.value ≠ "&self" ∧ t.value ≠ "&mut" := by
      constructor <;> intro hvalue <;> rw [hvalue] at heq <;> cases heq <;> cases hc
    rw [hshown, TypedName.sexpr, Sexpr.reading_headed]
    change Sexpr.partOf _ _ = _
    unfold Sexpr.partOf
    rw [Token.kind_ofText, h.kindOf_eq, hk]
    simp [hmark, ha.isType, Sexpr.firstTy]

theorem SelfParam.Printed.reference {mutable : Bool} :
    (SelfParam.mk true mutable none sp).Printed := by
  have hself : (Sexpr.atom "self").Readable := .atom (isWord_of (by decide))
  cases mutable with
  | false => exact ⟨.headed (isWord_of (by decide)) nofun, rfl⟩
  | true => exact ⟨.headed (isWord_of (by decide)) (List.forall_mem_singleton.mpr hself), rfl⟩

theorem SelfParam.Printed.value {mutable : Bool} {a : Option Ty} (ha : ∀ b ∈ a, b.Printed) :
    (SelfParam.mk false mutable a sp).Printed := by
  have hself : (Sexpr.atom "self").Readable := .atom (isWord_of (by decide))
  have htys : ∀ s ∈ tySexpr? a, s.Readable := by
    rw [tySexpr?_eq_map]
    simpa using fun b hb => (ha b hb).readable
  have hty := Sexpr.head?_reading fun b hb => (ha b hb).ty
  rw [← tySexpr?_eq_map] at hty
  cases mutable with
  | false =>
    refine ⟨.headed (isWord_of (by decide)) htys, ?_⟩
    rw [SelfParam.shown, tyShown?_eq_map, ← hty, SelfParam.sexpr]
    change (headed "self" (tySexpr? a)).reading.part = _
    rw [Sexpr.reading_headed]
    rfl
  | true =>
    refine ⟨.headed (isWord_of (by decide)) (List.forall_mem_cons.mpr ⟨hself, htys⟩), ?_⟩
    rw [SelfParam.shown, tyShown?_eq_map, ← hty]
    change (headed "mut" (.atom "self" :: tySexpr? a)).reading.part = _
    rw [Sexpr.reading_headed]
    rfl

namespace Sexpr.FunctionPart

variable (s : Option SelfParam) (ps : List TypedName) (r : Option Ty) (b : Option Block)

def all : List FunctionPart :=
  s.toList.map selfParam ++ ps.map param ++ r.toList.map result ++ b.toList.map body

section

variable {α : Type} {f : FunctionPart → Option α} {g : α → FunctionPart}

theorem findSome?_toList (h : ∀ a, f (g a) = some a) (o : Option α) :
    (o.toList.map g).findSome? f = o := by
  cases o with
  | none => rfl
  | some a => rw [Option.toList_some, List.map_singleton, List.findSome?_singleton, h]

theorem findSome?_map_eq_none {β : Type} {g : β → FunctionPart} (h : ∀ a, f (g a) = none)
    (as : List β) : (as.map g).findSome? f = none := by
  simp [h]

end

/-! In all parts of a function, those of each sort are found. -/

theorem findSome?_selfParam? : (all s ps r b).findSome? selfParam? = s := by
  simp only [all, List.findSome?_append]
  rw [findSome?_toList (f := selfParam?) (g := selfParam) fun _ => rfl,
    findSome?_map_eq_none fun _ => rfl, findSome?_map_eq_none fun _ => rfl,
    findSome?_map_eq_none fun _ => rfl]
  simp

theorem filterMap_param? : (all s ps r b).filterMap param? = ps := by
  have hps : (ps.map param).filterMap param? = ps := by
    simp [List.filterMap_map, Function.comp_def, param?]
  cases s <;> cases r <;> cases b <;> simp [all, hps, List.filterMap_cons, param?]

theorem findSome?_result? : (all s ps r b).findSome? result? = r := by
  simp only [all, List.findSome?_append]
  rw [findSome?_map_eq_none fun _ => rfl, findSome?_map_eq_none fun _ => rfl,
    findSome?_toList (f := result?) (g := result) fun _ => rfl, findSome?_map_eq_none fun _ => rfl]
  simp

theorem findSome?_body? : (all s ps r b).findSome? body? = b := by
  simp only [all, List.findSome?_append]
  rw [findSome?_map_eq_none fun _ => rfl, findSome?_map_eq_none fun _ => rfl,
    findSome?_map_eq_none fun _ => rfl, findSome?_toList (f := body?) (g := body) fun _ => rfl]
  simp

end Sexpr.FunctionPart

structure Member.Printed (m : Member) : Prop where
  readable : m.sexpr.Readable
  member : m.sexpr.reading.member = m.shown
  word : m.sexpr.reading.word = ""

/-- An item that is read back, at the top level and as a statement. -/
structure Item.Printed (i : Item) : Prop where
  readable : i.sexpr.Readable
  item : i.sexpr.reading.item = i.shown
  stmt : i.sexpr.reading.stmt = .item i.shown
  tail : i.sexpr.reading.tail? = none
  isType : i.sexpr.reading.isType = false

theorem Stmt.Printed.item {i : Item} (h : i.Printed) : (Stmt.item i).Printed :=
  ⟨h.readable, h.stmt, h.tail, h.isType⟩

/-- An item is read back if the list is. -/
theorem Item.Printed.of_headed {i : Item} {head : String} {parts : List Sexpr}
    (hs : i.sexpr = headed head parts) (hw : IsWord head.toList)
    (hhead : head ≠ "tail" ∧ head ∉ Sexpr.typeHeads) (hparts : ∀ s ∈ parts, s.Readable)
    (hitem : Sexpr.isItem (.ofText head) (parts.map reading) = true)
    (hi : Sexpr.itemOf (.ofText head) (parts.map reading) = i.shown) : i.Printed := by
  have hreading : i.sexpr.reading = .ofParts (.ofText head) (parts.map reading) := by
    rw [hs, Sexpr.reading_headed]
  refine ⟨hs ▸ .headed hw hparts, ?_, ?_, ?_, ?_⟩ <;> rw [hreading]
  · exact hi
  · rw [← hi]
    exact if_pos hitem
  · exact if_neg hhead.1
  · exact decide_eq_false hhead.2

def functionHead (isConst : Bool) : String := if isConst then "const-fn" else "fn"

/-- A list with such a head is a function wherever it stands. -/
theorem functionHead_spec (isConst : Bool) (parts : List Reading) :
    let head := Token.ofText (functionHead isConst)
    Sexpr.isItem head parts = true ∧
      Sexpr.itemOf head parts = .function (Sexpr.functionOf head parts) ∧
      Sexpr.memberOf head parts = .function (Sexpr.functionOf head parts) := by
  cases isConst <;> exact ⟨rfl, rfl, rfl⟩

section

variable {s : Option SelfParam} {ps : List TypedName} {r : Option Ty} {b : Option Block}
  (hs : ∀ x ∈ s, x.Printed) (hps : ∀ n ∈ ps, n.Printed) (hr : ∀ a ∈ r, a.Printed)
  (hb : ∀ x ∈ b, x.Printed)

def signatureSexprs (s : Option SelfParam) (ps : List TypedName) (r : Option Ty)
    (b : Option Block) : List Sexpr :=
  selfSexpr? s ++ typedNameSexprs ps ++ resultSexpr? r ++ blockSexpr? b

theorem signatureSexprs_eq_map : signatureSexprs s ps r b =
    s.toList.map SelfParam.sexpr ++ ps.map TypedName.sexpr ++
      r.toList.map (fun a => headed "->" [a.sexpr]) ++ b.toList.map Block.sexpr := by
  rw [signatureSexprs, selfSexpr?_eq_map, typedNameSexprs_eq_map, resultSexpr?_eq_map,
    blockSexpr?_eq_map]

include hs hps hr hb

theorem signatureSexprs_readable : ∀ x ∈ signatureSexprs s ps r b, x.Readable := by
  have hresult : ∀ a ∈ r, (headed "->" [a.sexpr]).Readable := fun a ha =>
    .headed (isWord_of (by decide)) (List.forall_mem_singleton.mpr (hr a ha).readable)
  simp only [signatureSexprs_eq_map, List.forall_mem_append, List.forall_mem_map, Option.mem_toList]
  exact ⟨⟨⟨fun x hx => (hs x hx).readable, fun n hn => (hps n hn).readable⟩, hresult⟩,
    fun x hx => (hb x hx).expr.readable⟩

/-- Each part of a function is told from the others. -/
theorem part_signatureSexprs : ((signatureSexprs s ps r b).map reading).map Reading.part =
    Sexpr.FunctionPart.all (s.map SelfParam.shown) (ps.map TypedName.shown) (r.map Ty.shown)
      (b.map Block.shown) := by
  have hself : ∀ x ∈ s.toList, x.sexpr.reading.part = .selfParam x.shown := fun x hx =>
    (hs x (Option.mem_toList.mp hx)).part
  have hresult : ∀ a ∈ r.toList, (headed "->" [a.sexpr]).reading.part = .result a.shown := by
    intro a ha
    rw [← (hr a (Option.mem_toList.mp ha)).ty]
    rfl
  have hbody : ∀ x ∈ b.toList, x.sexpr.reading.part = .body x.shown := fun x hx =>
    (hb x (Option.mem_toList.mp hx)).part
  rw [signatureSexprs_eq_map, Sexpr.FunctionPart.all]
  simp only [List.map_append]
  rw [Sexpr.map_reading hself, Sexpr.map_reading hresult, Sexpr.map_reading hbody,
    Sexpr.map_reading fun n hn => (hps n hn).part]
  simp only [Option.toList_map, List.map_map, Function.comp_def]

theorem functionOf_eq {isConst : Bool} (h : t.Spelt) :
    Sexpr.functionOf (.ofText (functionHead isConst))
      ((t.sexpr :: signatureSexprs s ps r b).map reading) =
      (FunctionDecl.mk isConst t s ps r b sp).shown := by
  have hconst : decide (functionHead isConst = "const-fn") = isConst := by cases isConst <;> rfl
  rw [Sexpr.functionOf, List.map_cons, List.tail_cons, part_signatureSexprs hs hps hr hb,
    Sexpr.FunctionPart.findSome?_selfParam?, Sexpr.FunctionPart.filterMap_param?,
    Sexpr.FunctionPart.findSome?_result?, Sexpr.FunctionPart.findSome?_body?, Token.value_ofText,
    hconst, FunctionDecl.shown, selfShown?_eq_map, typedNameShowns_eq_map, tyShown?_eq_map,
    blockShown?_eq_map, ← h.reading_sexpr]
  rfl

end

structure FunctionDecl.Printed (f : FunctionDecl) : Prop where
  member : (Member.function f).Printed
  item : (Item.function f).Printed

structure ConstantDecl.Printed (c : ConstantDecl) : Prop where
  member : (Member.constant c).Printed
  item : (Item.constant c).Printed

/-- A member is read back if the list is. -/
theorem Member.Printed.of_headed {m : Member} {head : String} {parts : List Sexpr}
    (hs : m.sexpr = headed head parts) (hw : IsWord head.toList) (hparts : ∀ s ∈ parts, s.Readable)
    (hm : Sexpr.memberOf (.ofText head) (parts.map reading) = m.shown) : m.Printed := by
  refine ⟨hs ▸ .headed hw hparts, ?_, ?_⟩ <;> rw [hs, Sexpr.reading_headed]
  · exact hm
  · rfl

theorem Token.Spelt.readable_sexpr (h : t.Spelt) (hk : t.kind = .identifier ∨ t.kind = .underscore) :
    t.sexpr.Readable :=
  .atom (h.isWord (by rcases hk with hk | hk <;> simp [hk]))

theorem FunctionDecl.printed {isConst : Bool} {s : Option SelfParam} {ps : List TypedName}
    {r : Option Ty} {b : Option Block} (h : t.Spelt) (hk : t.kind = .identifier)
    (hs : ∀ x ∈ s, x.Printed) (hps : ∀ n ∈ ps, n.Printed) (hr : ∀ a ∈ r, a.Printed)
    (hb : ∀ x ∈ b, x.Printed) : (FunctionDecl.mk isConst t s ps r b sp).Printed := by
  have hsexpr : (FunctionDecl.mk isConst t s ps r b sp).sexpr =
      headed (functionHead isConst) (t.sexpr :: signatureSexprs s ps r b) := by
    simp [FunctionDecl.sexpr, signatureSexprs, functionHead]
  have hword : IsWord (functionHead isConst).toList := by
    cases isConst <;> exact isWord_of (by decide)
  have hhead : functionHead isConst ≠ "tail" ∧ functionHead isConst ∉ Sexpr.typeHeads := by
    cases isConst <;> decide
  have hparts := List.forall_mem_cons.mpr
    ⟨h.readable_sexpr (.inl hk), signatureSexprs_readable hs hps hr hb⟩
  obtain ⟨hisItem, hitem, hmember⟩ :=
    functionHead_spec isConst ((t.sexpr :: signatureSexprs s ps r b).map reading)
  refine ⟨.of_headed hsexpr hword hparts ?_, .of_headed hsexpr hword hhead hparts hisItem ?_⟩
  · rw [hmember, functionOf_eq hs hps hr hb h, Member.shown]
  · rw [hitem, functionOf_eq hs hps hr hb h, Item.shown]

theorem ConstantDecl.printed {a : Ty} {v : Option Expr} (h : t.Spelt)
    (hk : t.kind = .identifier ∨ t.kind = .underscore) (ha : a.Printed) (hv : ∀ e ∈ v, e.Printed) :
    (ConstantDecl.mk t a v sp).Printed := by
  have hsexpr : (ConstantDecl.mk t a v sp).sexpr =
      headed "const" (t.sexpr :: a.sexpr :: v.toList.map Expr.sexpr) := by
    rw [ConstantDecl.sexpr, exprSexpr?_eq_map]
    rfl
  have hparts : ∀ s ∈ t.sexpr :: a.sexpr :: v.toList.map Expr.sexpr, s.Readable := by
    simpa using ⟨h.readable_sexpr hk, ha.readable, fun e he => (hv e he).readable⟩
  have hshown : (ConstantDecl.mk t a v sp).shown = Sexpr.constantOf (.ofText "const")
      ((t.sexpr :: a.sexpr :: v.toList.map Expr.sexpr).map reading) := by
    rw [ConstantDecl.shown, exprShown?_eq_map, ← Sexpr.head?_reading fun e he => (hv e he).expr,
      ← ha.ty, ← h.reading_sexpr]
    rfl
  refine ⟨.of_headed hsexpr (isWord_of (by decide)) hparts ?_,
    .of_headed hsexpr (isWord_of (by decide)) (by decide) hparts ?_ ?_⟩
  · rw [Member.shown, hshown]
    rfl
  · have hkind : kindOf "const" = .kwConst := by decide
    simp [Sexpr.isItem, hkind]
  · rw [Item.shown, hshown]
    rfl

namespace Item.Printed

theorem unitStruct (h : t.Spelt) (hk : t.kind = .identifier) : (Item.unitStruct t sp).Printed := by
  have hunit : (Sexpr.atom "unit").Readable := .atom (isWord_of (by decide))
  refine of_headed rfl (isWord_of (by decide)) (by decide)
    (by simpa using ⟨h.readable_sexpr (.inl hk), hunit⟩) rfl ?_
  rw [Item.shown, ← h.reading_sexpr]
  rfl

theorem struct {ns : List TypedName} (h : t.Spelt) (hk : t.kind = .identifier)
    (hns : ∀ n ∈ ns, n.Printed) : (Item.struct t ns sp).Printed := by
  have hunit : ((ns.map TypedName.sexpr).map reading).any (·.word = "unit") = false := by
    simp [TypedName.sexpr, Sexpr.reading_headed, Sexpr.Reading.ofParts]
  refine of_headed (by rw [Item.sexpr, typedNameSexprs_eq_map]) (isWord_of (by decide)) (by decide)
    (List.forall_mem_cons.mpr ⟨h.readable_sexpr (.inl hk), ?_⟩) rfl ?_
  · simpa using fun n hn => (hns n hn).readable
  · rw [Item.shown, typedNameShowns_eq_map, ← Sexpr.map_reading fun n hn => (hns n hn).typedName,
      ← h.reading_sexpr]
    exact if_neg (Bool.eq_false_iff.mp hunit)

theorem enum {vs : List Token} (h : t.Spelt) (hk : t.kind = .identifier)
    (hvs : ∀ v ∈ vs, v.Spelt ∧ v.kind = .identifier) : (Item.enum t vs sp).Printed := by
  refine of_headed rfl (isWord_of (by decide)) (by decide)
    (List.forall_mem_cons.mpr ⟨h.readable_sexpr (.inl hk), ?_⟩) rfl ?_
  · simpa using fun v hv => (hvs v hv).1.readable_sexpr (.inl (hvs v hv).2)
  · rw [Item.shown, ← Sexpr.map_reading fun v hv => (hvs v hv).1.reading_sexpr, ← h.reading_sexpr]
    rfl

section

variable {ms : List Member} (hms : ∀ m ∈ ms, m.Printed)
include hms

theorem trait (h : t.Spelt) (hk : t.kind = .identifier) : (Item.trait t ms sp).Printed := by
  refine of_headed (by rw [Item.sexpr, memberSexprs_eq_map]) (isWord_of (by decide)) (by decide)
    (List.forall_mem_cons.mpr ⟨h.readable_sexpr (.inl hk), ?_⟩) rfl ?_
  · simpa using fun m hm => (hms m hm).readable
  · rw [Item.shown, memberShowns_eq_map, ← Sexpr.map_reading fun m hm => (hms m hm).member,
      ← h.reading_sexpr]
    rfl

theorem implFor {a : Ty} (h : t.Spelt) (hk : t.kind = .identifier) (ha : a.Printed) :
    (Item.impl (some t) a ms sp).Printed := by
  have hfor : (Sexpr.atom "for").Readable := .atom (isWord_of (by decide))
  have hsexpr : (Item.impl (some t) a ms sp).sexpr =
      headed "impl" (t.sexpr :: .atom "for" :: a.sexpr :: ms.map Member.sexpr) := by
    rw [Item.sexpr, memberSexprs_eq_map]
    rfl
  refine of_headed hsexpr (isWord_of (by decide)) (by decide) ?_ rfl ?_
  · simpa using ⟨h.readable_sexpr (.inl hk), hfor, ha.readable, fun m hm => (hms m hm).readable⟩
  · rw [Item.shown, memberShowns_eq_map, ← Sexpr.map_reading fun m hm => (hms m hm).member, ← ha.ty,
      Option.map_some, ← h.reading_sexpr]
    rfl

theorem impl {a : Ty} (ha : a.Printed) : (Item.impl none a ms sp).Printed := by
  refine of_headed (by rw [Item.sexpr, memberSexprs_eq_map]) (isWord_of (by decide)) (by decide)
    (List.forall_mem_cons.mpr ⟨ha.readable, by simpa using fun m hm => (hms m hm).readable⟩) rfl ?_
  rw [Item.shown, memberShowns_eq_map, ← Sexpr.map_reading fun m hm => (hms m hm).member, ← ha.ty]
  -- the first member is no word, so it is not taken for the one after the name of a trait
  match ms, hms with
  | [], _ | [_], _ => rfl
  | m :: m' :: ms, hms =>
    have hmark : m.sexpr.reading.word ≠ "for" := by
      rw [(hms m List.mem_cons_self).word]
      decide
    exact if_neg hmark

end

end Item.Printed

end FrontEnd
