import FrontEnd.Grammar.Block
/-!
# The grammar of items
-/
namespace FrontEnd.Grammar

open Phrase

def typedName : Phrase TypedName := do
  let name ← expect .identifier
  let _ ← expect .colon
  let type ← ty
  return ⟨name, type, ← spanFrom name.span⟩

/-- Whether a `self` parameter begins here: `self` after nothing, `mut`, `&` or `&mut`. -/
def startsSelfParam : Phrase Bool := do
  match ← kind, ← nextKind, ← kindAfterNext with
  | .kwSelfValue, _, _ => return true
  | .kwMut, .kwSelfValue, _ => return true
  | .ampersand, .kwSelfValue, _ => return true
  | .ampersand, .kwMut, .kwSelfValue => return true
  | _, _, _ => return false

/-- A `self` parameter, declared as a variable. Only one that is no reference can have a type. -/
def selfParam : Phrase SelfParam := do
  let start ← current
  let byRef ← eat .ampersand
  let mutable ← eat .kwMut
  let _ ← expect .kwSelfValue
  let type ← if byRef then pure none else after? .colon ty
  declare (.var "self" type mutable) start.span.start
  return ⟨byRef, mutable, type, ← spanFrom start.span⟩

/-- The `self` parameter, if there is one, and the comma that has to follow unless the list ends. -/
def selfParam? : Phrase (Option SelfParam) := do
  if ← startsSelfParam then
    let p ← selfParam
    if (← kind) = .closeParen then
      return some p
    else
      let _ ← expect .comma
      return some p
  else
    return none

def param : Phrase TypedName := do
  let name ← expect .identifier
  let _ ← expect .colon
  let type ← ty
  declare (.var name.value (some type) false) name.span.start
  return ⟨name, type, ← spanFrom name.span⟩

/-- The body of a function, or the semicolon in its place where a signature is allowed. -/
def functionBody (allowSignature : Bool) : Phrase (Option Block) := do
  if (← kind) = .semicolon then
    if allowSignature then
      let _ ← take
      return none
    else
      fail "a function body"
  else
    some <$> block

/-- A function. Its parameters are in a scope around that of its body. -/
def function (allowSignature : Bool) : Phrase FunctionDecl := do
  let start ← current
  let isConst ← eat .kwConst
  let _ ← expect .kwFn
  let name ← expect .identifier
  inScope do
    let _ ← expect .openParen
    let self ← selfParam?
    let params ← commaList .closeParen param
    let _ ← expect .closeParen
    let result ← after? .arrow ty
    let body ← functionBody allowSignature
    return ⟨isConst, name, self, params, result, body, ← spanFrom start.span⟩

/-- The value of a constant, which may be left out in a trait only. -/
def constantValue (inTrait : Bool) : Phrase (Option Expr) := do
  if ← eat .assignment then some <$> expr .lowest
  else if inTrait then return none
  else fail TokenKind.assignment.describe

def constant (inTrait : Bool) : Phrase ConstantDecl := do
  let keyword ← expect .kwConst
  let name ← expectOneOf [.identifier, .underscore] "an identifier"
  let _ ← expect .colon
  let type ← ty
  let value ← constantValue inTrait
  let _ ← expect .semicolon
  return ⟨name, type, value, ← spanFrom keyword.span⟩

def struct : Phrase Item := do
  let keyword ← expect .kwStruct
  let name ← expect .identifier
  match ← kind with
  | .semicolon =>
    let _ ← take
    return .unitStruct name (← spanFrom keyword.span)
  | .openCurly =>
    let _ ← take
    let fields ← commaList .closeCurly typedName
    let _ ← expect .closeCurly
    return .struct name fields (← spanFrom keyword.span)
  | _ => fail "`\x7b` or `;`"

def enum : Phrase Item := do
  let keyword ← expect .kwEnum
  let name ← expect .identifier
  let _ ← expect .openCurly
  let variants ← commaList .closeCurly (expect .identifier)
  let _ ← expect .closeCurly
  return .enum name variants (← spanFrom keyword.span)

def member (inTrait : Bool) : Phrase Member := do
  match ← kind, ← nextKind with
  | .kwFn, _ => Member.function <$> function inTrait
  | .kwConst, .kwFn => Member.function <$> function inTrait
  | .kwConst, _ => Member.constant <$> constant inTrait
  | _, _ => fail "an associated item"

def declaredMember (inTrait : Bool) : Phrase Member := do
  let start ← position
  let m ← member inTrait
  declare (.ofMember m) start
  return m

def members (inTrait : Bool) : Phrase (List Member) :=
  inScope do
    let _ ← expect .openCurly
    let ms ← untilKind .closeCurly (declaredMember inTrait)
    let _ ← expect .closeCurly
    return ms

def trait : Phrase Item := do
  let keyword ← expect .kwTrait
  let name ← expect .identifier
  let ms ← members true
  return .trait name ms (← spanFrom keyword.span)

/-- The name of the trait of an impl: an identifier with `for` right after it. -/
def implTrait? : Phrase (Option Token) := do
  match ← kind, ← nextKind with
  | .identifier, .kwFor =>
    let name ← take
    let _ ← take
    return some name
  | _, _ => return none

def impl : Phrase Item := do
  let keyword ← expect .kwImpl
  let traitName ← implTrait?
  let target ← ty
  let ms ← members false
  return .impl traitName target ms (← spanFrom keyword.span)

/-- An item, told by its first token; a function may have `const` before it. -/
def item : Phrase Item := do
  match ← kind, ← nextKind with
  | .kwFn, _ => Item.function <$> function false
  | .kwConst, .kwFn => Item.function <$> function false
  | .kwConst, _ => Item.constant <$> constant false
  | .kwStruct, _ => struct
  | .kwEnum, _ => enum
  | .kwTrait, _ => trait
  | .kwImpl, _ => impl
  | _, _ => fail "an item"

/-- An item, declared in the scope around it once it has been read. -/
def declaredItem : Phrase Item := do
  let i ← item
  declare (.ofItem i) i.span.start
  return i

def crate (file : String) : Phrase Crate := do
  let items ← untilKind .eof declaredItem
  return ⟨items, ⟨.origin file, ← position⟩⟩

end FrontEnd.Grammar
