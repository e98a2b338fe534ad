import FrontEnd.Tree.Printed
/-!
# Symbols

What a name can refer to. A symbol keeps what its declaration says and is stored under its `key`.
-/
namespace FrontEnd

inductive Symbol
  | var (name : String) (ty : Option Ty) (mutable : Bool)
  /-- A function; the `self` parameter is not among `params`. -/
  | function (name : String) (params : List Ty) (result : Option Ty)
  /-- A struct; one without fields is a unit struct. -/
  | struct (name : String) (fields : Option (List TypedName))
  | enum (name : String) (variants : List String)
  | trait (name : String) (members : List String)
  | impl (target : Ty) (traitName : Option String) (members : List String)
  | constant (name : String) (ty : Ty)

namespace Symbol

def ofFunction (f : FunctionDecl) : Symbol :=
  .function f.name.value (f.params.map TypedName.ty) f.result

def ofConstant (c : ConstantDecl) : Symbol := .constant c.name.value c.ty

def ofMember : Member → Symbol
  | .constant c => ofConstant c
  | .function f => ofFunction f

def ofItem : Item → Symbol
  | .function f => ofFunction f
  | .unitStruct name _ => .struct name.value none
  | .struct name fields _ => .struct name.value (some fields)
  | .enum name variants _ => .enum name.value (variants.map Token.value)
  | .constant c => ofConstant c
  | .trait name members _ => .trait name.value (members.map fun m => m.name.value)
  | .impl traitName target members _ =>
    .impl target (traitName.map Token.value) (members.map fun m => m.name.value)

/-- The variables that a pattern binds, in the order of binding. The type stated beside the pattern
is that of the whole value, so only a name for the whole value has it. -/
def ofPattern (p : Pattern) (ty : Option Ty) : List Symbol :=
  match p.bindings with
  | [] => []
  | b :: bs =>
    .var b.name.value (if p.isIdentifier then ty else none) b.mutable ::
      bs.map fun b => .var b.name.value none b.mutable

/-- The key of a symbol in a scope: its name, or the head of an impl, which has no name. -/
def key : Symbol → String
  | .var name _ _ => name
  | .function name _ _ => name
  | .struct name _ => name
  | .enum name _ => name
  | .trait name _ => name
  | .impl target none _ => "impl " ++ target.sexpr.render
  | .impl target (some traitName) _ => s!"impl {traitName} for " ++ target.sexpr.render
  | .constant name _ => name

/-- Whether a pattern that is just the name of this symbol means the symbol and binds nothing. -/
def isPatternConstant : Symbol → Bool
  | .constant _ _ => true
  | .struct _ fields => fields.isNone
  | _ => false

end Symbol

end FrontEnd
