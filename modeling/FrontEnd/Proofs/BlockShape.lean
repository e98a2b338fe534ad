import FrontEnd.Proofs.ReadNodes
/-!
# The shape of blocks and arms

What ends an expression in a block is told by the token after it: a semicolon makes it a statement, a
closing brace makes it the value of the block, and without either it has to end in a block itself. An
arm goes by the same rule, with a comma for the semicolon. That nothing but a member access goes on
after a block at the start of a statement shows at the left edge of the expression.
-/
namespace FrontEnd

namespace Expr

def leftOperand? : Expr → Option Expr
  | binary _ _ e _ _ | cast e _ _ | assign e _ _ | compoundAssign _ e _ _ | call e _ _ | index e _ _
  | methodCall e _ _ _ | field e _ _ => some e
  | _ => none

/-- The first expression is the second, or stands at its left edge. -/
inductive OnLeft : Expr → Expr → Prop
  | self (e : Expr) : OnLeft e e
  | operand {m l e : Expr} (hl : e.leftOperand? = some l) (h : OnLeft m l) : OnLeft m e

def isMember : Expr → Bool
  | methodCall _ _ _ _ | field _ _ _ => true
  | _ => false

/-- What ends in a block at the left edge of an expression, below the expression itself, is the
operand of a field or a method call. -/
def KeepsBlocks (e : Expr) : Prop :=
  ∀ parent leaf, OnLeft parent e → parent.leftOperand? = some leaf → leaf.isBlockLike = true →
    parent.isMember = true

end Expr

/-- A part of a block: a statement that is no expression, or an expression, the kind of the token
after it and the text that it covers if it is a statement. -/
inductive Part
  | statement (statement : Stmt)
  | expr (expr : Expr) (next : TokenKind) (span : Span)

def Part.toStmt : Part → Stmt
  | statement s => s
  | expr e next span => .expr e (next = .semicolon) span

inductive Part.Row (resolve : Bool) : Place → List Part → Place → Prop
  | closed {x : Place} (h : x.kind = .closeCurly) : Row resolve x [] x
  | statement {ℓ : Nat} {b : Bool} {x y z : Place} {s : Stmt} {ps : List Part}
    (hs : Derives resolve .statement ℓ b x s y) (hps : Row resolve y ps z) :
    Row resolve x (.statement s :: ps) z
  | terminated {ℓ : Nat} {b : Bool} {x z : Place} {t : Token} {i : List Token} {n : Names} {e : Expr}
    {sp : Span} {ps : List Part} (he : Derives resolve .statementExpr ℓ b x e ⟨t :: i, n⟩)
    (ht : t.kind = .semicolon) (hps : Row resolve ⟨i, n⟩ ps z) :
    Row resolve x (.expr e .semicolon sp :: ps) z
  | bare {ℓ : Nat} {b : Bool} {x y z : Place} {e : Expr} {sp : Span} {ps : List Part}
    (he : Derives resolve .statementExpr ℓ b x e y) (hy : y.kind ≠ .semicolon)
    (hps : Row resolve y ps z) : Row resolve x (.expr e y.kind sp :: ps) z

/-- The parts of a block make up its statements and its value. -/
structure Block.MadeOf (bl : Block) (parts : List Part) : Prop where
  statements : ∃ sp, parts.map Part.toStmt = bl.statements ++ bl.tail.toList.map (Stmt.expr · false sp)
  /-- The value is what stands last, if it is an expression without semicolon. -/
  tail_iff (e : Expr) : bl.tail = some e ↔
    ∃ next sp, parts.getLast? = some (.expr e next sp) ∧ next ≠ .semicolon

/-- A block as it is read from a list of tokens. -/
structure Block.WellShaped (resolve : Bool) (tokens : List Token) (bl : Block) : Prop where
  isBlockLike : ∀ e sp, .expr e false sp ∈ bl.statements → e.isBlockLike = true
  last : bl.tail = none → ∀ e sp, bl.statements.getLast? ≠ some (.expr e false sp)
  keepsBlocks : ∀ e, (∃ semicolon sp, .expr e semicolon sp ∈ bl.statements) ∨ bl.tail = some e →
    e.KeepsBlocks
  parts : ∃ opening x parts y, opening.kind = .openCurly ∧ opening :: x.rest <:+ tokens ∧
    Part.Row resolve x parts y ∧ bl.MadeOf parts

inductive Arm.Row (resolve : Bool) : Place → List (Arm × TokenKind) → Place → Prop
  | closed {x : Place} (h : x.kind = .closeCurly) : Row resolve x [] x
  | comma {ℓ : Nat} {b : Bool} {x z : Place} {t : Token} {i : List Token} {n : Names} {a : Arm}
    {as : List (Arm × TokenKind)} (ha : Derives resolve .arm ℓ b x a ⟨t :: i, n⟩)
    (ht : t.kind = .comma) (has : Row resolve ⟨i, n⟩ as z) : Row resolve x ((a, .comma) :: as) z
  | bare {ℓ : Nat} {b : Bool} {x y z : Place} {a : Arm} {as : List (Arm × TokenKind)}
    (ha : Derives resolve .arm ℓ b x a y) (hy : y.kind ≠ .comma) (has : Row resolve y as z) :
    Row resolve x ((a, y.kind) :: as) z

/-- Arms as they are read from a list of tokens: after one that does not end in a block stands a
comma or the closing brace. -/
def Arm.WellShaped (resolve : Bool) (tokens : List Token) (arms : List Arm) : Prop :=
  ∃ x row y, x.Of tokens ∧ Arm.Row resolve x row y ∧ row.map Prod.fst = arms ∧
    ∀ a next, (a, next) ∈ row → a.body.isBlockLike = false → next ∈ [TokenKind.comma, .closeCurly]

/-- What holds of a node as to blocks and arms. -/
def Node.WellShaped (resolve : Bool) (tokens : List Token) : Node → Prop
  | block bl => bl.WellShaped resolve tokens
  | expr (.matching _ arms _) => Arm.WellShaped resolve tokens arms
  | arm a => a.body.KeepsBlocks
  | _ => True

variable {resolve : Bool} {ℓ : Nat} {b : Bool} {x y z : Place} {e : Expr} {tokens : List Token}

namespace Suffix

theorem leftOperand_attach (s : Suffix) (e : Expr) : (s.attach e).leftOperand? = some e := by
  cases s <;> rfl

theorem isBlockLike_attach (s : Suffix) (e : Expr) : (s.attach e).isBlockLike = false := by
  cases s <;> rfl

end Suffix

namespace Expr

theorem keepsBlocks_of_none (h : e.leftOperand? = none) : e.KeepsBlocks := by
  intro parent leaf hon hleaf
  cases hon with
  | self => simp [h] at hleaf
  | operand hl _ => simp [h] at hl

theorem KeepsBlocks.attach {s : Suffix} (he : e.KeepsBlocks)
    (hs : e.isBlockLike = true → (s.attach e).isMember = true) : (s.attach e).KeepsBlocks := by
  intro parent leaf hon hleaf hblock
  cases hon with
  | self =>
    cases (s.leftOperand_attach e).symm.trans hleaf
    exact hs hblock
  | operand hl h =>
    cases (s.leftOperand_attach e).symm.trans hl
    exact he parent leaf h hleaf hblock

theorem KeepsBlocks.foldl (he : e.KeepsBlocks) (hb : e.isBlockLike = false) (ss : List Suffix) :
    (ss.foldl Suffix.attach e).KeepsBlocks := by
  induction ss generalizing e with
  | nil => exact he
  | cons s ss ih => exact ih (he.attach (by simp [hb])) (s.isBlockLike_attach e)

end Expr

namespace Derives

theorem leftOperand_term (h : Derives resolve .term ℓ b x e y) : e.leftOperand? = none := by
  cases h <;> rfl

theorem startsBlockLike_of_isBlockLike (h : Derives resolve .term ℓ b x e y)
    (he : e.isBlockLike = true) : x.StartsBlockLike := by
  cases h with
  | termBlock h => exact .inl (by simp [show x.kind = .openCurly from h.starts])
  | termConst h hb => exact .inr ⟨h, hb.starts⟩
  | termIf h => exact .inl (by simp [show x.kind = .kwIf from h.starts])
  | termMatch h _ _ _ | termLoop h _ | termWhile h _ _ => exact .inl (by simp [h])
  | _ => cases he

theorem isMember_attach {s : Suffix} (h : Derives resolve .suffix ℓ b x s y) (hx : x.kind = .dot)
    (e : Expr) : (s.attach e).isMember = true := by
  cases h with
  | sufField _ _ => rfl
  | sufMethod _ _ _ _ => rfl
  | _ => simp_all [TokenKind.tier?]

/-- After a block at the start of a statement, only a dot goes on with the expression. -/
theorem keepsBlocks (h : Derives resolve .statementExpr ℓ b x e y) : e.KeepsBlocks := by
  cases h with
  | stmtExpr hx he =>
    cases he with
    | expr he hs =>
      refine (Expr.keepsBlocks_of_none he.leftOperand_term).foldl ?_ _
      exact Bool.eq_false_iff.2 fun hblock => hx (he.startsBlockLike_of_isBlockLike hblock)
  | stmtBlockLike _ he _ => exact Expr.keepsBlocks_of_none he.leftOperand_term
  | stmtMember _ he hy hs =>
    have hterm := Expr.keepsBlocks_of_none he.leftOperand_term
    cases hs with
    | suffixesNil _ => exact hterm
    | suffixesCons _ _ hs _ =>
      exact (hterm.attach fun _ => hs.isMember_attach hy _).foldl (Suffix.isBlockLike_attach _ _) _

end Derives

namespace Derives

variable {ss : List Stmt} {tail : Option Expr}

theorem elements_isBlockLike (h : Derives resolve .elements ℓ b x (ss, tail) y) :
    ∀ e sp, .expr e false sp ∈ ss → e.isBlockLike = true := by
  induction ss generalizing x ℓ with
  | nil => exact nofun
  | cons s ss ih =>
    cases h with
    | elementsCons hs hss =>
      intro e sp hmem
      obtain rfl | hmem := List.mem_cons.1 hmem
      · cases hs with
        | elementBlockLike _ _ _ _ hb => exact hb
        | elementStmt _ hs => cases hs
      · exact ih hss e sp hmem

theorem elements_keepsBlocks (h : Derives resolve .elements ℓ b x (ss, tail) y) :
    ∀ e, (∃ semicolon sp, .expr e semicolon sp ∈ ss) ∨ tail = some e → e.KeepsBlocks := by
  induction ss generalizing x ℓ with
  | nil =>
    rintro e (⟨_, _, h⟩ | rfl)
    · cases h
    · cases h with
      | elementsTail _ he _ => exact he.keepsBlocks
  | cons s ss ih =>
    cases h with
    | elementsCons hs hss =>
      rintro e (⟨semicolon, sp, hmem⟩ | rfl)
      · obtain rfl | hmem := List.mem_cons.1 hmem
        · cases hs with
          | elementExpr _ he _ => exact he.keepsBlocks
          | elementBlockLike _ he _ _ _ => exact he.keepsBlocks
          | elementStmt _ hs => cases hs
        · exact ih hss e (.inl ⟨semicolon, sp, hmem⟩)
      · exact ih hss e (.inr rfl)

/-- What stands last before the closing brace is no expression without semicolon, or else it is the
value. -/
theorem elements_last (h : Derives resolve .elements ℓ b x (ss, none) y) :
    ∀ e sp, ss.getLast? ≠ some (.expr e false sp) := by
  induction ss generalizing x ℓ with
  | nil => exact nofun
  | cons s ss ih =>
    cases h with
    | elementsCons hs hss =>
      intro e sp hlast
      cases ss with
      | nil =>
        obtain rfl : s = .expr e false sp := by simpa using hlast
        cases hss with
        | elementsNil hc =>
          cases hs with
          | elementBlockLike _ _ _ hne _ => exact hne hc
          | elementStmt _ hs => cases hs
      | cons s' ss => exact ih hss e sp (by rwa [List.getLast?_cons_cons] at hlast)

theorem elements_row (h : Derives resolve .elements ℓ b x (ss, tail) y) :
    ∃ parts next sp z, Part.Row resolve x (parts ++ tail.toList.map (.expr · next sp)) z ∧
      parts.map Part.toStmt = ss ∧ next ≠ .semicolon := by
  induction ss generalizing x ℓ with
  | nil =>
    cases h with
    | elementsNil hc => exact ⟨[], .closeCurly, .nowhere, _, .closed hc, rfl, by decide⟩
    | @elementsTail _ _ _ _ _ c e _ he hc =>
      have hne : c.kind ≠ .semicolon := by simp [hc]
      exact ⟨[], c.kind, .nowhere, _, .bare he hne (.closed hc), rfl, hne⟩
  | cons s ss ih =>
    cases h with
    | elementsCons hs hss =>
      obtain ⟨parts, next, sp, z, hrow, hparts, hnext⟩ := ih hss
      cases hs with
      | elementStmt _ hs =>
        refine ⟨_ :: parts, next, sp, z, .statement hs hrow, ?_, hnext⟩
        simp [Part.toStmt, hparts]
      | @elementExpr _ _ _ _ _ sp' _ _ _ he ht =>
        refine ⟨.expr _ _ sp' :: parts, next, sp, z, .terminated he ht hrow, ?_, hnext⟩
        simp [Part.toStmt, hparts]
      | @elementBlockLike _ _ _ _ sp' _ _ he hne _ _ =>
        refine ⟨.expr _ _ sp' :: parts, next, sp, z, .bare he hne hrow, ?_, hnext⟩
        simp [Part.toStmt, hparts, hne]

end Derives

/-- Parts of which no expression without semicolon is the last but the value of the block. -/
theorem Block.madeOf {bl : Block} {parts : List Part} {next : TokenKind} {sp : Span}
    (hlast : bl.tail = none → ∀ e sp, bl.statements.getLast? ≠ some (.expr e false sp))
    (hparts : parts.map Part.toStmt = bl.statements) (hnext : next ≠ .semicolon) :
    bl.MadeOf (parts ++ bl.tail.toList.map (.expr · next sp)) := by
  refine ⟨⟨sp, ?_⟩, fun e => ?_⟩
  · rw [List.map_append, hparts, List.map_map]
    congr 1
    exact List.map_congr_left fun e _ => by simp [Part.toStmt, hnext]
  · cases htail : bl.tail with
    | some e' =>
      simp only [Option.toList_some, List.map_cons, List.map_nil, List.getLast?_concat]
      constructor
      · rintro ⟨⟩
        exact ⟨next, sp, rfl, hnext⟩
      · rintro ⟨_, _, ⟨⟩, _⟩
        rfl
    | none =>
      refine ⟨nofun, ?_⟩
      rintro ⟨next', sp', hget, hne⟩
      have hstmt : bl.statements.getLast? = some (.expr e false sp') := by
        rw [← hparts, List.getLast?_map]
        simp_all [Part.toStmt]
      exact absurd hstmt (hlast htail e sp')

theorem Derives.block_wellShaped {bl : Block} (h : Derives resolve .block ℓ b x bl y)
    (hx : x.Of tokens) : bl.WellShaped resolve tokens := by
  obtain ⟨ss, tail, sp⟩ := bl
  cases h with
  | block hopen hs =>
    obtain ⟨parts, next, sp', z, hrow, hparts, hnext⟩ := hs.elements_row
    have hlast (h : tail = none) : ∀ e sp, ss.getLast? ≠ some (.expr e false sp) := by
      subst h
      exact hs.elements_last
    exact ⟨hs.elements_isBlockLike, hlast, hs.elements_keepsBlocks, _, ⟨_, _⟩, _, z, hopen, hx, hrow,
      Block.madeOf hlast hparts hnext⟩

namespace Derives

theorem arms_row {as : List Arm} (h : Derives resolve .arms ℓ b x as y) :
    ∃ row z, Arm.Row resolve x row z ∧ row.map Prod.fst = as ∧
      ∀ a next, (a, next) ∈ row → a.body.isBlockLike = false →
        next ∈ [TokenKind.comma, .closeCurly] := by
  induction as generalizing x with
  | nil =>
    cases h with
    | armsNil hc => exact ⟨[], _, .closed hc, rfl, nofun⟩
  | cons a as ih =>
    cases h with
    | armsComma ha ht has =>
      obtain ⟨row, z, hrow, hmap, hnext⟩ := ih has
      refine ⟨_, z, .comma ha ht hrow, by simp [hmap], fun a' next hmem hbody => ?_⟩
      obtain h | hmem := List.mem_cons.1 hmem
      · cases h
        exact List.mem_cons_self
      · exact hnext a' next hmem hbody
    | armsBare ha hy hc has =>
      obtain ⟨row, z, hrow, hmap, hnext⟩ := ih has
      refine ⟨_, z, .bare ha hy hrow, by simp [hmap], fun a' next hmem hbody => ?_⟩
      obtain h | hmem := List.mem_cons.1 hmem
      · cases h
        obtain hc | hblock := hc
        · simp [hc]
        · cases hbody.symm.trans hblock
      · exact hnext a' next hmem hbody

theorem arm_keepsBlocks {a : Arm} (h : Derives resolve .arm ℓ b x a y) : a.body.KeepsBlocks := by
  cases h with
  | arm _ _ _ he => exact he.keepsBlocks

/-- The arms of a match are read from the tokens after its brace. -/
theorem matching_wellShaped {as : List Arm} {sp : Span}
    (h : Derives resolve .term ℓ b x (.matching e as sp) y) (hx : x.rest.tail <:+ tokens) :
    Arm.WellShaped resolve tokens as := by
  cases h with
  | termMatch _ he _ has =>
    obtain ⟨row, z, hrow, hmap, hnext⟩ := has.arms_row
    have hopening : Place.Of tokens _ := he.place_of hx
    exact ⟨_, row, z, hopening.next, hrow, hmap, hnext⟩

end Derives

theorem Expr.Chain.of_none (h : e.Chain resolve ℓ b x y) (he : e.leftOperand? = none) :
    Derives resolve .term ℓ b x e y := by
  cases h with
  | term h => exact h
  | attach _ _ => simp [Suffix.leftOperand_attach] at he

theorem Node.DerivedIn.wellShaped {n : Node} (h : n.DerivedIn resolve tokens) :
    n.WellShaped resolve tokens := by
  cases n with
  | block bl =>
    obtain ⟨ℓ, b, x, y, hx, hd⟩ := h
    exact hd.block_wellShaped hx
  | expr e =>
    obtain ⟨ℓ, b, x, y, hx, hc⟩ := h
    cases e with
    | matching e as sp => exact (hc.of_none rfl).matching_wellShaped hx
    | _ => trivial
  | arm a =>
    obtain ⟨ℓ, b, x, y, -, hd⟩ := h
    exact hd.arm_keepsBlocks
  | _ => trivial

/-- Whatever is read in whatever session: every block in it is well-shaped, and so are the arms of
every match. -/
theorem Session.read_wellShaped (s : Session) (op : Operation) (a : op.Tree)
    (h : (s.read op.phrase).1 = .ok a) :
    ∀ n ∈ op.nodes a, n.Everywhere (Node.WellShaped s.options.resolvePatterns s.state.cursor.ahead) :=
  fun n hn m hm => (read_nodes op a h n hn m hm).wellShaped

/-- A block of a loop whose field is a statement and a match whose only arm has no comma. -/
theorem Session.read_wellShaped_match :
    let s := Session.start ([TokenKind.openCurly, .kwLoop, .openCurly, .closeCurly, .dot,
      .identifier, .semicolon, .kwMatch, .underscore, .openCurly, .underscore, .fatArrow,
      .identifier, .closeCurly, .closeCurly].map Token.fixed) "t" ⟨6, true⟩
    ∃ bl, (s.read Operation.block.phrase).1 = .ok bl ∧
      ∀ n ∈ Operation.block.nodes bl,
        n.Everywhere (Node.WellShaped s.options.resolvePatterns s.state.cursor.ahead) := by
  intro s
  have hok : ((s.read Operation.block.phrase).1 matches .ok _) = true := by decide +kernel
  match h : (s.read Operation.block.phrase).1 with
  | .ok bl => exact ⟨bl, rfl, s.read_wellShaped .block bl h⟩
  | .error e => simp [h] at hok

end FrontEnd
