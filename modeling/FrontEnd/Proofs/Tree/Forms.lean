import FrontEnd.Proofs.Derivation
import FrontEnd.Proofs.Tree.Written
/-!
# Writing forms as tokens

The canonical tokens of everything that can be derived, also of the parts of a tree that have no
node of their own.
-/
namespace FrontEnd

open Token (fixed)

def Suffix.write : Suffix → List Token
  | .binary operator right => operator :: right.write
  | .assign value => fixed .assignment :: value.write
  | .compoundAssign operator value => operator :: value.write
  | .cast target => fixed .kwAs :: target.write
  | .call arguments _ => fixed .openParen :: Written.list .closeParen (arguments.map Expr.write)
  | .index i _ => fixed .openBracket :: (i.write ++ [fixed .closeBracket])
  | .field name => [fixed .dot, name]
  | .methodCall method arguments _ =>
    fixed .dot :: method :: fixed .openParen ::
      Written.list .closeParen (arguments.map Expr.write)

theorem Suffix.write_attach (s : Suffix) (e : Expr) : (s.attach e).write = e.write ++ s.write := by
  cases s <;> simp [attach, write, Expr.write]

theorem Suffix.write_foldl_attach (ss : List Suffix) (e : Expr) :
    (ss.foldl attach e).write = e.write ++ ss.flatMap write := by
  induction ss generalizing e with
  | nil => simp
  | cons s ss ih => simp [ih, write_attach]

/-- The canonical tokens of a tree of a form. A form that goes up to a closing token has it too. -/
def Form.write : (σ : Form) → σ.Tree → List Token
  | segment, t | name, t => [t]
  | flag k, set => Written.flag k set
  | after k form, a => Written.after k (a.map form.write)
  | eachAfter k form, as => Written.eachAfter k (as.map form.write)
  | list br form, as => Written.list br.closing (as.map form.write)
  | more br form, as => Written.more br.closing (as.map form.write)
  | path, p => p.write
  | ty, t => t.write
  | pattern, p => p.write
  | expr _, e | term, e | statementExpr, e => e.write
  | suffix, s => s.write
  | suffixes _, ss => ss.flatMap Suffix.write
  | field, f => f.write
  | jumpValue, v => (v.map Expr.write).getD []
  | block, b => b.write
  | element, s | statement, s => s.write
  | elements, (ss, e) =>
    (ss.map Stmt.write).flatten ++ ((e.map Expr.write).getD [] ++ [fixed .closeCurly])
  | letLink, l | link, l => l.write
  | condition, c => c.write
  | conditional, c => c.write
  | otherwise, o => o.write
  | arm, a => a.write
  | arms, as => (as.map fun a => a.write ++ [fixed .comma]).flatten ++ [fixed .closeCurly]
  | typedName, n | param, n => n.write
  | selfParam, s => s.write
  | params, (s, ps) => Written.list .closeParen (selfWrites s ++ ps.map TypedName.write)
  | body _, b => (b.map Block.write).getD [fixed .semicolon]
  | function _, f => f.write
  | constant _, c => c.write
  | member _, m => m.write
  | members _, ms => (ms.map Member.write).flatten ++ [fixed .closeCurly]
  | item, i | declaredItem, i => i.write
  | items, is => (is.map Item.write).flatten

end FrontEnd
