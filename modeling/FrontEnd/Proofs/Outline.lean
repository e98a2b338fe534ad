import FrontEnd.Proofs.Tree.Bare
import FrontEnd.Scope.Names
/-!
# Outlines of names

Reading asks of the names only which keys are in which scope and whether they stand for something
that a pattern can mean. This much of the names is their outline. It does not depend on where things
were found, and each change of the names changes the outline by a rule of its own.
-/
namespace FrontEnd

/-- What reading depends on in a symbol. -/
def Symbol.outline (s : Symbol) : String × Bool := (s.key, s.isPatternConstant)

def Scope.outline (s : Scope) : Option Nat × List (String × Bool) :=
  (s.parent, s.symbols.map fun (name, symbol) => (name, symbol.isPatternConstant))

def ScopeTable.outline (t : ScopeTable) : Array (Option Nat × List (String × Bool)) :=
  t.scopes.map Scope.outline

def Names.outline (n : Names) : Array (Option Nat × List (String × Bool)) := n.scopes.outline

namespace Scope

theorem find?_outline (s : Scope) (name : String) :
    (s.find? name).map Symbol.isPatternConstant = s.outline.2.lookup name := by
  obtain ⟨parent, symbols⟩ := s
  simp only [find?, outline]
  induction symbols with
  | nil => rfl
  | cons entry symbols ih =>
    rw [List.lookup_cons, List.map_cons, List.lookup_cons]
    split <;> simp_all

/-- Adds an entry to the outline of a scope in place of one of the same key. -/
def insertOutline (entry : String × Bool) (scope : Option Nat × List (String × Bool)) :
    Option Nat × List (String × Bool) :=
  (scope.1, entry :: scope.2.filter (·.1 ≠ entry.1))

theorem outline_insert (s : Scope) (symbol : Symbol) :
    (s.insert symbol.key symbol).outline = insertOutline symbol.outline s.outline := by
  simp only [insert, outline, insertOutline, Symbol.outline, List.map_cons, List.filter_map]
  rfl

end Scope

namespace ScopeTable

theorem size_outline (t : ScopeTable) : t.outline.size = t.depth := by simp [outline, depth]

theorem getElem?_outline (t : ScopeTable) (id : Nat) :
    t.outline[id]? = t.scopes[id]?.map Scope.outline := by
  simp [outline]

theorem outline_push (t : ScopeTable) :
    t.push.outline = t.outline.push (some (t.outline.size - 1), []) := by
  simp [push, outline, Scope.outline, current, depth]

theorem outline_pop (t : ScopeTable) :
    t.pop.2.outline = if t.outline.size = 1 then t.outline else t.outline.pop := by
  simp only [pop, outline, Array.size_map]
  split <;> simp

theorem outline_insert (t : ScopeTable) (symbol : Symbol) :
    (t.insert symbol.key symbol).outline =
      t.outline.modify (t.outline.size - 1) (Scope.insertOutline symbol.outline) := by
  refine Array.ext (by simp [insert, outline]) fun id hid hid' => ?_
  simp only [insert, outline, current, depth, Array.getElem_map, Array.getElem_modify, Array.size_map]
  split
  · exact Scope.outline_insert _ symbol
  · rfl

variable {t t' : ScopeTable}

theorem lookupFrom_outline (h : t.outline = t'.outline) (name : String) (fuel id : Nat) :
    (t.lookupFrom name fuel id).map Symbol.isPatternConstant =
      (t'.lookupFrom name fuel id).map Symbol.isPatternConstant := by
  induction fuel generalizing id with
  | zero => rfl
  | succ fuel ih =>
    have hscope : t.scopes[id]?.map Scope.outline = t'.scopes[id]?.map Scope.outline := by
      rw [← getElem?_outline, ← getElem?_outline, h]
    match hs : t.scopes[id]?, hs' : t'.scopes[id]? with
    | none, none => simp [lookupFrom, hs, hs']
    | none, some _ | some _, none => simp [hs, hs'] at hscope
    | some s, some s' =>
      have hout : s.outline = s'.outline := by simpa [hs, hs'] using hscope
      have hparent : s.parent = s'.parent := congrArg Prod.fst hout
      have hfind : (s.find? name).map Symbol.isPatternConstant =
          (s'.find? name).map Symbol.isPatternConstant := by
        rw [Scope.find?_outline, Scope.find?_outline, hout]
      simp only [lookupFrom, hs, hs', Option.bind_eq_bind, Option.bind_some, hparent]
      match hf : s.find? name, hf' : s'.find? name with
      | none, none =>
        cases s'.parent with
        | none => rfl
        | some outer => exact ih outer
      | none, some _ | some _, none => simp [hf, hf'] at hfind
      | some symbol, some symbol' => simpa [hf, hf'] using hfind

theorem lookup_outline (h : t.outline = t'.outline) (name : String) :
    (t.lookup name).map Symbol.isPatternConstant =
      (t'.lookup name).map Symbol.isPatternConstant := by
  have hdepth : t.depth = t'.depth := by rw [← size_outline, ← size_outline, h]
  rw [lookup, lookup, current, current, hdepth, lookupFrom_outline h]

theorem lookupLocal_outline (h : t.outline = t'.outline) (name : String) :
    (t.lookupLocal name).isSome = (t'.lookupLocal name).isSome := by
  have hinner (t : ScopeTable) : t.outline[t.outline.size - 1]? = some t.innermost.outline := by
    have hlt : t.scopes.size - 1 < t.scopes.size := Nat.sub_lt t.size_pos Nat.one_pos
    rw [getElem?_outline, innermost, Array.back_eq_getElem, size_outline, depth,
      Array.getElem?_eq_getElem hlt, Option.map_some]
  have hout : t.innermost.outline = t'.innermost.outline :=
    Option.some.inj (by rw [← hinner, ← hinner, h])
  rw [lookupLocal, lookupLocal, ← Option.isSome_map (f := Symbol.isPatternConstant),
    ← Option.isSome_map (f := Symbol.isPatternConstant), Scope.find?_outline, Scope.find?_outline, hout]

end ScopeTable

namespace Names

variable {n n' : Names} {s s' : Symbol}

theorem isConstant_outline (h : n.outline = n'.outline) (name : String) :
    n.isConstant name = n'.isConstant name := by
  have hlookup := ScopeTable.lookup_outline h name
  unfold isConstant
  match hl : n.scopes.lookup name, hl' : n'.scopes.lookup name with
  | none, none => rfl
  | none, some _ | some _, none => simp [hl, hl'] at hlookup
  | some symbol, some symbol' => simpa [hl, hl'] using hlookup

theorem outline_push (h : n.outline = n'.outline) : n.push.outline = n'.push.outline := by
  simp only [outline] at h
  simp only [outline, push, ScopeTable.outline_push, h]

theorem outline_pop (h : n.outline = n'.outline) : n.pop.outline = n'.pop.outline := by
  simp only [outline] at h
  simp only [outline, pop, ScopeTable.outline_pop, h]

theorem outline_bind (h : n.outline = n'.outline) (hs : s.outline = s'.outline) :
    (n.bind s).outline = (n'.bind s').outline := by
  simp only [outline] at h
  simp only [outline, bind, ScopeTable.shadow, ScopeTable.outline_insert, h, hs]

theorem outline_declare_eq (n : Names) (s : Symbol) (place : Position) :
    (n.declare s place).outline =
      if (n.scopes.lookupLocal s.key).isSome then n.outline else (n.bind s).outline := by
  unfold declare ScopeTable.define
  split <;> rename_i h <;> split at h <;> cases h
  · rw [if_neg ‹_›]
    rfl
  · rw [if_pos ‹_›]
    rfl

theorem outline_declare (h : n.outline = n'.outline) (hs : s.outline = s'.outline)
    (place place' : Position) : (n.declare s place).outline = (n'.declare s' place').outline := by
  have hkey : s.key = s'.key := congrArg Prod.fst hs
  rw [outline_declare_eq, outline_declare_eq, ScopeTable.lookupLocal_outline h, hkey, h,
    outline_bind h hs]

theorem outline_bindAll {ss ss' : List Symbol} (h : n.outline = n'.outline)
    (hs : ss.map Symbol.outline = ss'.map Symbol.outline) :
    (ss.foldl bind n).outline = (ss'.foldl bind n').outline := by
  induction ss generalizing ss' n n' with
  | nil =>
    cases ss' with
    | nil => exact h
    | cons => cases hs
  | cons s ss ih =>
    cases ss' with
    | nil => cases hs
    | cons s' ss' =>
      obtain ⟨hs, hss⟩ := List.cons.inj hs
      rw [List.foldl_cons, List.foldl_cons]
      exact ih (outline_bind h hs) hss

end Names

mutual
theorem Pattern.bindings_bare : ∀ p : Pattern,
    p.bare.bindings = p.bindings.map fun b => ⟨b.name.bare, b.mutable⟩
  | .literal _ _ _ | .wildcard _ | .path _ => rfl
  | .identifier _ _ _ none _ => rfl
  | .identifier _ _ _ (some sub) _ => by simp [Pattern.bare, bindings, sub.bindings_bare]
  | .reference _ inner _ => inner.bindings_bare
  | .tupleStruct _ elements _ => Pattern.bindingsOfList_bare elements
theorem Pattern.bindingsOfList_bare : ∀ ps : List Pattern,
    bindingsOfList (patternBares ps) = (bindingsOfList ps).map fun b => ⟨b.name.bare, b.mutable⟩
  | [] => rfl
  | p :: ps => by
    simp only [patternBares, bindingsOfList, p.bindings_bare, bindingsOfList_bare ps,
      List.map_append]
end

namespace Symbol

attribute [local simp] outline key isPatternConstant

theorem outline_ofPattern (p : Pattern) (a : Option Ty) :
    (ofPattern p a).map outline = p.bindings.map fun b => (b.name.value, false) := by
  unfold ofPattern
  split <;> rename_i h <;> simp [h]

theorem outline_ofPattern_bare (p : Pattern) (a a' : Option Ty) :
    (ofPattern p.bare a).map outline = (ofPattern p a').map outline := by
  simp [outline_ofPattern, Pattern.bindings_bare]

theorem outline_ofPattern_of_bare {p p' : Pattern} (h : p'.bare = p.bare)
    (a a' : Option Ty) : (ofPattern p' a').map outline = (ofPattern p a).map outline := by
  rw [← outline_ofPattern_bare p' a' a', h, outline_ofPattern_bare]

theorem outline_ofFunction_bare (f : FunctionDecl) :
    (ofFunction f.bare).outline = (ofFunction f).outline := by
  cases f
  simp [FunctionDecl.bare, ofFunction]

theorem outline_ofConstant_bare (c : ConstantDecl) :
    (ofConstant c.bare).outline = (ofConstant c).outline := by
  cases c
  simp [ConstantDecl.bare, ofConstant]

theorem outline_ofMember_bare (m : Member) : (ofMember m.bare).outline = (ofMember m).outline := by
  cases m with
  | constant c => exact outline_ofConstant_bare c
  | function f => exact outline_ofFunction_bare f

theorem outline_ofItem_bare (i : Item) : (ofItem i.bare).outline = (ofItem i).outline := by
  cases i with
  | function f => exact outline_ofFunction_bare f
  | constant c => exact outline_ofConstant_bare c
  | impl name target members sp =>
    cases name <;> simp [Item.bare, ofItem, target.sexpr_bare]
  | _ => simp [Item.bare, ofItem]

end Symbol

end FrontEnd
