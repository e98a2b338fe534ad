import FrontEnd.Proofs.DerivedNodes
import FrontEnd.Proofs.Heads
import FrontEnd.Proofs.Operation
import FrontEnd.Proofs.Soundness
/-!
# Nodes of what is read

Whatever piece of a program is read in a session, all nodes of its tree are derived from the tokens
that were ahead. So a property of all trees that are read needs to be shown of one derived node only.
-/
namespace FrontEnd

open Grammar Phrase

/-- The nodes that an operation reads. What operators attach to is given and not read. -/
def Operation.nodes : (op : Operation) → op.Tree → List Node
  | expr _, e | statementExpr, e | constBlock, e | whileLoop, e | loop, e | matching, e | term, e =>
    [.expr e]
  | ty, t => [.ty t]
  | pattern, p => [.pattern p]
  | condition, c => [.condition c]
  | block, b => [.block b]
  | conditional, c => [.conditional c]
  | statement, s | letBinding, s | emptyStatement, s => [.statement s]
  | declaredItem, i | item, i => [.item i]
  | function _, f => [.function f]
  | constant _, c => [.constant c]
  | path, p => [.path p]
  | operators _ _, _ => []
  | crate _, c => c.items.map .item

namespace Session

variable {α : Type} {s : Session}

/-- What a phrase yields at the place of a session, the session reads. -/
theorem read_yields {p : Phrase α} {a : α} {Q : α → Place → Prop}
    (hp : Yields s.options s.options.maxDepth (s.options.maxDepth - s.state.depth)
      s.state.structLiterals p s.state.place Q)
    (h : (s.read p).1 = .ok a) : ∃ y, Q a y := by
  obtain ⟨y, -, hq⟩ := hp s.state a _ ⟨rfl, rfl, rfl⟩ (ok_of_read h)
  exact ⟨y, hq⟩

/-- All nodes that an operation reads are derived from the tokens ahead of it. -/
theorem read_nodes (op : Operation) (a : op.Tree) (h : (s.read op.phrase).1 = .ok a) :
    ∀ n ∈ op.nodes a, n.AllDerivedIn s.options.resolvePatterns s.state.cursor.ahead := by
  have G := Goal.sound s.options s.options.maxDepth
  have of (σ : Form) {p : Phrase σ.Tree} {a : σ.Tree}
      (hp : p.Sound s.options s.options.maxDepth σ) (h : (s.read p).1 = .ok a) :
      ∀ n ∈ σ.nodes a, n.AllDerivedIn s.options.resolvePatterns s.state.cursor.ahead :=
    (read_sound hp h).nodes_derivedIn (Place.of_self _ _)
  have statement {p : Phrase Stmt} {a : Stmt} (hp : p.Sound s.options s.options.maxDepth .statement)
      (h : (s.read p).1 = .ok a) :
      ∀ n ∈ [Node.statement a], n.AllDerivedIn s.options.resolvePatterns s.state.cursor.ahead :=
    of .element (Yields.mono hp fun _ _ hs => .elementStmt hs.startsStatement hs) h
  cases op with
  | expr above => exact of (.expr above) (G.expr above) h
  | statementExpr => exact of .statementExpr (sound_statementExpr G) h
  | ty => exact of .ty (sound_ty G) h
  | pattern => exact of .pattern G.pattern h
  | condition => exact of .condition (sound_condition G) h
  | block => exact of .block G.block h
  | constBlock => exact of .term (sound_constBlock G) h
  | conditional => exact of .conditional (sound_conditional G) h
  | whileLoop => exact of .term (yields_whileLoop G) h
  | loop => exact of .term (yields_loop G) h
  | matching => exact of .term (yields_matching G) h
  | statement => exact statement (sound_statement G) h
  | letBinding => exact statement (yields_letBinding G) h
  | emptyStatement =>
    refine statement (.bind .expect fun t y ⟨ht, hx⟩ => .pure ?_) h
    exact hx ▸ .stmtEmpty ht
  | declaredItem => exact of .declaredItem (sound_declaredItem G) h
  | item => exact of .item (sound_item G) h
  | function allowSignature =>
    exact of (.function allowSignature) (Yields.mono (yields_function G _) fun _ _ => And.left) h
  | constant inTrait =>
    exact of (.constant inTrait) (Yields.mono (yields_constant G _) fun _ _ => And.left) h
  | path => exact of .path sound_path h
  | term => exact of .term (yields_term G) h
  | operators above left => exact nofun
  | crate file =>
    obtain ⟨y, hd, -⟩ := read_yields (yields_crate G file) h
    exact hd.nodes_derivedIn (Place.of_self _ _)

end Session

end FrontEnd
