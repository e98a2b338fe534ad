import FrontEnd.Proofs.ScopeReplay
import Mathlib.Logic.Function.Basic
/-!
# Scopes as a stack

What is visible where can be told from the finished tree of a file with a stack of plain maps, one
for each open scope: a scope that opens is empty, one that closes is forgotten, a declaration keeps
what is there and a binding replaces it. Reading a file in one pass comes to the same.
-/
namespace FrontEnd

/-- A stack of scopes, and the declarations that found their key taken. -/
structure Walk where
  /-- The innermost scope. -/
  current : String → Option Symbol
  /-- The scopes around it, from the inside outward. -/
  outer : List (String → Option Symbol)
  collisions : List Redefinition

namespace Walk

def start : Walk := ⟨fun _ => none, [], []⟩

/-- The symbol of a name in the nearest scope that has it. -/
def lookup (w : Walk) (name : String) : Option Symbol := (w.current :: w.outer).findSome? (· name)

def store (w : Walk) (symbol : Symbol) : Walk :=
  { w with current := Function.update w.current symbol.key (some symbol) }

def close (w : Walk) : Walk :=
  match w.outer with
  | [] => w
  | scope :: outer => { w with current := scope, outer }

def declare (w : Walk) (symbol : Symbol) (position : Position) : Walk :=
  if (w.current symbol.key).isSome then
    { w with collisions := w.collisions ++ [⟨symbol.key, position⟩] }
  else
    w.store symbol

/-- The stack after an event. There is none if a pattern that is just a name is not what the stack
says: a path if names are resolved and the nearest symbol of the name is a constant or a unit
struct, else a binding. -/
def after (resolve : Bool) (w : Walk) : Event → Option Walk
  | .opened => some { w with current := fun _ => none, outer := w.current :: w.outer }
  | .closed => some w.close
  | .declared symbol position => some (w.declare symbol position)
  | .bound symbol => some (w.store symbol)
  | .named name constant =>
    if (resolve && (w.lookup name).any Symbol.isPatternConstant) = constant then some w else none

def replay (resolve : Bool) (w : Walk) (events : List Event) : Option Walk :=
  events.foldlM (after resolve) w

end Walk

namespace Scope

theorem find?_insert (s : Scope) (name : String) (symbol : Symbol) :
    (s.insert name symbol).find? = Function.update s.find? name (some symbol) := by
  funext other
  obtain ⟨parent, symbols⟩ := s
  simp only [find?, insert, List.lookup_cons, Function.update_apply]
  by_cases h : other = name
  · simp [h]
  · have hne : (other == name) = false := by simpa using h
    simp only [hne, h, if_false]
    induction symbols with
    | nil => rfl
    | cons entry symbols ih =>
      rw [List.filter_cons, List.lookup_cons]
      split <;> rename_i hkey
      · rw [List.lookup_cons, ih]
      · have hkey : entry.1 = name := by simpa using hkey
        rw [ih, hkey, hne]

end Scope

namespace ScopeTable

variable {t : ScopeTable}

/-- What the open scopes hold, the root first. -/
def contents (t : ScopeTable) : List (String → Option Symbol) := t.scopes.toList.map Scope.find?

/-- Each scope but the root points to the one opened before it. -/
def Linked (t : ScopeTable) : Prop :=
  ∀ id scope, t.scopes[id]? = some scope → scope.parent = if id = 0 then none else some (id - 1)

theorem scopes_eq (t : ScopeTable) : t.scopes = t.scopes.pop.push t.innermost := by
  refine Array.ext (by have := t.size_pos; simp; omega) fun id hid hid' => ?_
  simp only [innermost, Array.back_eq_getElem, Array.getElem_push, Array.size_pop,
    Array.getElem_pop]
  split
  · rfl
  · congr 1
    omega

theorem scopes_insert (t : ScopeTable) (name : String) (symbol : Symbol) :
    (t.insert name symbol).scopes = t.scopes.pop.push (t.innermost.insert name symbol) := by
  refine Array.ext (by have := t.size_pos; simp [insert]; omega) fun id hid hid' => ?_
  simp only [insert, Array.size_modify] at hid
  simp only [insert, current, depth, innermost, Array.back_eq_getElem, Array.getElem_push,
    Array.size_pop, Array.getElem_pop, Array.getElem_modify]
  by_cases hlast : t.scopes.size - 1 = id
  · subst hlast
    simp
  · have hlt : id < t.scopes.size - 1 := by omega
    simp [hlast, hlt]

theorem contents_eq (t : ScopeTable) : t.contents = t.contents.dropLast ++ [t.lookupLocal] := by
  have h := congrArg (fun a => a.toList.map Scope.find?) t.scopes_eq
  simp only [Array.toList_push, Array.toList_pop, List.map_append, List.map_dropLast] at h
  exact h

theorem contents_push (t : ScopeTable) : t.push.contents = t.contents ++ [fun _ => none] := by
  have hempty : Scope.find? ⟨some t.current, []⟩ = fun _ => none := rfl
  simp [contents, push, hempty]

theorem contents_insert (t : ScopeTable) (name : String) (symbol : Symbol) :
    (t.insert name symbol).contents =
      t.contents.dropLast ++ [Function.update t.lookupLocal name (some symbol)] := by
  simp only [contents, scopes_insert, Array.toList_push, Array.toList_pop, List.map_append,
    List.map_cons, List.map_nil, List.map_dropLast, Scope.find?_insert]
  rfl

theorem contents_pop (h : t.depth ≠ 1) : t.pop.2.contents = t.contents.dropLast := by
  have hmany : t.scopes.size ≠ 1 := h
  simp [pop, hmany, contents, List.map_dropLast]

theorem linked_push (h : t.Linked) : t.push.Linked := by
  intro id scope hs
  simp only [push, Array.getElem?_push, current, depth] at hs
  split at hs
  · have hpos := t.size_pos
    cases hs
    rw [if_neg (by omega)]
    simp_all
  · exact h id scope hs

theorem linked_pop (h : t.Linked) : t.pop.2.Linked := by
  intro id scope hs
  unfold pop at hs
  split at hs
  · exact h id scope hs
  · simp only [Array.getElem?_pop] at hs
    split at hs
    · exact h id scope hs
    · cases hs

theorem linked_insert (h : t.Linked) (name : String) (symbol : Symbol) :
    (t.insert name symbol).Linked := by
  intro id scope hs
  simp only [insert, Array.getElem?_modify] at hs
  split at hs
  · obtain ⟨scope, hs', rfl⟩ := Option.map_eq_some_iff.1 hs
    exact h id scope hs'
  · exact h id scope hs

/-- Along the links a name is found where the stack has it first. -/
theorem lookupFrom_eq (h : t.Linked) (name : String) (fuel id : Nat) (hid : id < t.depth)
    (hfuel : id < fuel) :
    t.lookupFrom name fuel id = (t.contents.take (id + 1)).reverse.findSome? (· name) := by
  induction fuel generalizing id with
  | zero => omega
  | succ fuel ih =>
    have hscope : t.scopes[id]? = some t.scopes[id] := Array.getElem?_eq_getElem hid
    have htake : t.contents.take (id + 1) = t.contents.take id ++ [t.scopes[id].find?] := by
      rw [List.take_add_one]
      simp [contents, hscope]
    rw [htake, List.reverse_append, List.reverse_singleton, List.singleton_append,
      List.findSome?_cons]
    simp only [lookupFrom, hscope, Option.bind_eq_bind, Option.bind_some]
    cases t.scopes[id].find? name with
    | some symbol => rfl
    | none =>
      simp only [h id _ hscope]
      cases id with
      | zero => rfl
      | succ id => simpa using ih id (by omega) (by omega)

theorem lookup_eq (h : t.Linked) (name : String) :
    t.lookup name = t.contents.reverse.findSome? (· name) := by
  have hpos := t.size_pos
  have hlast : t.current + 1 = t.contents.length := by simp [contents, current, depth]; omega
  rw [lookup, lookupFrom_eq h name t.depth t.current (by simp [current, depth]; omega)
    (by simp [current, depth]; omega), hlast, List.take_length]

end ScopeTable

/-- A stack holds what the open scopes hold, and has met the same collisions. -/
structure Walk.Follows (w : Walk) (n : Names) : Prop where
  contents : n.scopes.contents = w.outer.reverse ++ [w.current]
  linked : n.scopes.Linked
  collisions : w.collisions = n.redefinitions

namespace Walk.Follows

variable {w : Walk} {n m : Names} {resolve : Bool}

theorem start : Walk.start.Follows .empty := by
  refine ⟨rfl, fun id scope hs => ?_, rfl⟩
  cases id with
  | zero => cases hs; rfl
  | succ id => simp [Names.empty, ScopeTable.empty] at hs

theorem outer (h : w.Follows n) : n.scopes.contents.dropLast = w.outer.reverse :=
  List.append_inj_left' (n.scopes.contents_eq.symm.trans h.contents) rfl

theorem current (h : w.Follows n) : n.scopes.lookupLocal = w.current :=
  List.singleton_inj.1 (List.append_inj_right' (n.scopes.contents_eq.symm.trans h.contents) rfl)

theorem depth (h : w.Follows n) : n.scopes.depth = w.outer.length + 1 := by
  simpa [ScopeTable.contents, ScopeTable.depth] using congrArg List.length h.contents

theorem lookup (h : w.Follows n) (name : String) : n.scopes.lookup name = w.lookup name := by
  simp [ScopeTable.lookup_eq h.linked, h.contents, Walk.lookup, List.findSome?_cons]

theorem opened (h : w.Follows n) :
    Walk.Follows { w with current := fun _ => none, outer := w.current :: w.outer } n.push where
  contents := by simp [Names.push, ScopeTable.contents_push, h.contents]
  linked := ScopeTable.linked_push h.linked
  collisions := h.collisions

theorem closed (h : w.Follows n) : w.close.Follows n.pop := by
  have hdepth := h.depth
  have houter := h.outer
  obtain ⟨current, _ | ⟨scope, outer⟩, collisions⟩ := w
  · have hroot : n.pop = n := by
      have hone : n.scopes.scopes.size = 1 := hdepth
      simp [Names.pop, ScopeTable.pop, hone]
    rw [hroot]
    exact h
  · have hmany : n.scopes.depth ≠ 1 := by simp [hdepth]
    refine ⟨?_, ScopeTable.linked_pop h.linked, h.collisions⟩
    simpa [Names.pop, ScopeTable.contents_pop hmany, close] using houter

theorem stored (h : w.Follows n) (symbol : Symbol) : (w.store symbol).Follows (n.bind symbol) where
  contents := by
    simp [Names.bind, ScopeTable.shadow, ScopeTable.contents_insert, h.outer, h.current, store]
  linked := ScopeTable.linked_insert h.linked _ _
  collisions := h.collisions

theorem declared (h : w.Follows n) (symbol : Symbol) (position : Position) :
    (w.declare symbol position).Follows (n.declare symbol position) := by
  have hcurrent := congrFun h.current symbol.key
  unfold Walk.declare Names.declare ScopeTable.define
  rw [hcurrent]
  split
  · exact ⟨h.contents, h.linked, congrArg (· ++ _) h.collisions⟩
  · exact h.stored symbol

/-- Each event does the same to both. -/
theorem after (h : w.Follows n) {e : Event} (he : n.after resolve e = some m) :
    ∃ v, w.after resolve e = some v ∧ v.Follows m := by
  cases e with
  | opened => cases he; exact ⟨_, rfl, h.opened⟩
  | closed => cases he; exact ⟨_, rfl, h.closed⟩
  | declared symbol position => cases he; exact ⟨_, rfl, h.declared symbol position⟩
  | bound symbol => cases he; exact ⟨_, rfl, h.stored symbol⟩
  | named name constant =>
    simp only [Names.after, Names.isConstant, h.lookup] at he
    refine ⟨w, ?_, ?_⟩
    · rw [Walk.after]
      split at he
      · rw [if_pos ‹_›]
      · cases he
    · split at he <;> cases he
      exact h

/-- All events together do the same to both. -/
theorem replay (h : w.Follows n) {es : List Event} (hes : n.replay resolve es = some m) :
    ∃ v, w.replay resolve es = some v ∧ v.Follows m := by
  induction es generalizing w n with
  | nil => cases hes; exact ⟨w, rfl, h⟩
  | cons e es ih =>
    rw [Names.replay_cons] at hes
    obtain ⟨n', he, hrest⟩ := Option.bind_eq_some_iff.1 hes
    obtain ⟨v, hv, hfollows⟩ := h.after he
    obtain ⟨u, hu, hend⟩ := ih hfollows hrest
    refine ⟨u, ?_, hend⟩
    simpa [Walk.replay, List.foldlM_cons, hv] using hu

end Walk.Follows

/-- The scopes are what the finished tree of a file says: a walk through it ends in the root scope
with what the reading left there and meets the same collisions in the same order, and every pattern
that is just a name is at its turn in the walk what it was read as. -/
theorem parse_scopes (tokens : List Token) (file : String) (options : ParseOptions) (c : Crate)
    (t : ParseState) (h : parse tokens file options = .ok c t) :
    ∃ w, Walk.start.replay options.resolvePatterns (itemEvents c.items) = some w ∧
      w.outer = [] ∧ t.scopes.depth = 1 ∧ t.scopes.lookupLocal = w.current ∧
      t.redefinitions = w.collisions := by
  obtain ⟨w, hw, hfollows⟩ := Walk.Follows.start.replay (parse_sound h).1.replay
  have hdepth : t.scopes.depth = 1 :=
    (((Grammar.crate file).read_kept options).of_ok h).scopes.depth_eq
  have hlength : w.outer.length + 1 = 1 := hfollows.depth.symm.trans hdepth
  have houter : w.outer = [] := List.length_eq_zero_iff.1 (by omega)
  exact ⟨w, hw, houter, hdepth, hfollows.current, hfollows.collisions.symm⟩

/-- A constant that is declared twice, and a pattern in the second one that means the first. -/
theorem parse_scopes_collision :
    let tokens := [TokenKind.kwConst, .identifier, .colon, .bang, .assignment, .kwBreak, .semicolon,
      .kwConst, .identifier, .colon, .bang, .assignment, .kwMatch, .underscore, .openCurly,
      .identifier, .fatArrow, .kwBreak, .closeCurly, .semicolon].map Token.fixed
    ∃ c t w, parse tokens "t" = .ok c t ∧ Walk.start.replay true (itemEvents c.items) = some w ∧
      w.outer = [] ∧ t.scopes.depth = 1 ∧ t.scopes.lookupLocal = w.current ∧
      t.redefinitions = w.collisions ∧ w.collisions.length = 1 := by
  intro tokens
  obtain ⟨c, t, h, hone⟩ := exists_ok_of_succeeds (r := parse tokens "t")
    (P := fun _ t => t.redefinitions.length == 1) (by decide +kernel)
  obtain ⟨w, hw, houter, hdepth, hroot, hsame⟩ := parse_scopes tokens "t" {} c t h
  exact ⟨c, t, w, h, hw, houter, hdepth, hroot, hsame, hsame ▸ beq_iff_eq.mp hone⟩

end FrontEnd
