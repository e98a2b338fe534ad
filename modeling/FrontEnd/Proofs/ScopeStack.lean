import FrontEnd.Proofs.ScopeWalk
import Mathlib.Data.Finmap
/-!
# Scopes as a stack of finite maps

Seen through its answers, a table of chained scopes is a stack of finite maps: the number of a scope
is its place in the stack, the scope around it is the one just below, and a name is looked up from the
top down. The table comes to its answers by following links that were stored when the scopes opened.
That they still lead to the place below, whatever was asked for in between, is the invariant.
-/
namespace FrontEnd

namespace ScopeTable

inductive Request
  | push
  | pop
  | define (name : String) (symbol : Symbol)
  | shadow (name : String) (symbol : Symbol)
  | lookup (name : String)
  | lookupLocal (name : String)
  | current
  | parentOf (id : Nat)

inductive Answer
  /-- The number of a scope. -/
  | scope (id : Nat)
  /-- Whether it was done. -/
  | done (success : Bool)
  | symbol (found : Option Symbol)
  | parent (id : Option Nat)

def serveAll {σ : Type} (serve : σ → Request → Answer × σ) (s : σ) : List Request → List Answer × σ
  | [] => ([], s)
  | r :: rs =>
    let (a, s) := serve s r
    let (as, s) := serveAll serve s rs
    (a :: as, s)

def serve (t : ScopeTable) : Request → Answer × ScopeTable
  | .push => (.scope t.push.current, t.push)
  | .pop => (.done t.pop.1, t.pop.2)
  | .define name symbol => (.done (t.define name symbol).1, (t.define name symbol).2)
  | .shadow name symbol => (.symbol (t.shadow name symbol).1, (t.shadow name symbol).2)
  | .lookup name => (.symbol (t.lookup name), t)
  | .lookupLocal name => (.symbol (t.lookupLocal name), t)
  | .current => (.scope t.current, t)
  | .parentOf id => (.parent (t.parentOf? id), t)

end ScopeTable

open ScopeTable (Request Answer serveAll)

/-- The symbols of a scope by their names. -/
abbrev NameMap := Finmap fun _ : String => Symbol

/-- A stack of finite maps that is never empty. -/
structure ScopeStack where
  top : NameMap
  /-- The maps below the top, the root last. -/
  below : List NameMap

namespace ScopeStack

def root : ScopeStack := ⟨∅, []⟩

def current (s : ScopeStack) : Nat := s.below.length

def lookup (s : ScopeStack) (name : String) : Option Symbol :=
  (s.top :: s.below).findSome? (·.lookup name)

def serve (s : ScopeStack) : Request → Answer × ScopeStack
  | .push => (.scope (s.current + 1), ⟨∅, s.top :: s.below⟩)
  | .pop =>
    match s.below with
    | [] => (.done false, s)
    | m :: ms => (.done true, ⟨m, ms⟩)
  | .define name symbol =>
    if name ∈ s.top then (.done false, s) else (.done true, ⟨s.top.insert name symbol, s.below⟩)
  | .shadow name symbol => (.symbol (s.top.lookup name), ⟨s.top.insert name symbol, s.below⟩)
  | .lookup name => (.symbol (s.lookup name), s)
  | .lookupLocal name => (.symbol (s.top.lookup name), s)
  | .current => (.scope s.current, s)
  | .parentOf id => (.parent (if 0 < id ∧ id ≤ s.current then some (id - 1) else none), s)

end ScopeStack

/-- A scope has the symbols of a map. -/
def Scope.Holds (scope : Scope) (m : NameMap) : Prop := ∀ name, scope.find? name = m.lookup name

theorem Scope.Holds.insert {scope : Scope} {m : NameMap} (h : scope.Holds m) (name : String)
    (symbol : Symbol) : (scope.insert name symbol).Holds (m.insert name symbol) := by
  intro other
  rw [find?_insert, Function.update_apply]
  split
  · subst_vars
    exact (Finmap.lookup_insert m).symm
  · rw [Finmap.lookup_insert_of_ne _ ‹_›, h other]

namespace ScopeTable

variable {t : ScopeTable} {s : ScopeStack} {name : String}

/-- The scopes around the innermost, from there outward. -/
def around (t : ScopeTable) : List Scope := t.scopes.pop.toList.reverse

theorem reverse_scopes (t : ScopeTable) : t.scopes.toList.reverse = t.innermost :: t.around := by
  rw [scopes_eq]
  simp [around]

theorem length_around (t : ScopeTable) : t.around.length = t.current := by
  simp [around, current, depth]

theorem around_push (t : ScopeTable) : t.push.around = t.innermost :: t.around := by
  rw [← reverse_scopes]
  simp [around, push]

theorem innermost_push (t : ScopeTable) : t.push.innermost = ⟨some t.current, []⟩ := by
  simp [innermost, push, Array.back_eq_getElem]

theorem around_insert (t : ScopeTable) (name : String) (symbol : Symbol) :
    (t.insert name symbol).around = t.around := by
  simp [around, scopes_insert]

theorem innermost_insert (t : ScopeTable) (name : String) (symbol : Symbol) :
    (t.insert name symbol).innermost = t.innermost.insert name symbol := by
  have h := reverse_scopes (t.insert name symbol)
  rw [scopes_insert] at h
  simpa using (List.head_eq_of_cons_eq (by simpa using h) : _ = _).symm

/-- A way outward along the links, from a scope to the first that has the name or to the root. It
lists the scopes that it comes through and the symbol that it finds. -/
inductive Trail (t : ScopeTable) (name : String) : Nat → List Nat → Option Symbol → Prop
  | hit {id scope symbol} (h : t.scopes[id]? = some scope) (hname : scope.find? name = some symbol) :
    Trail t name id [id] (some symbol)
  | miss {id scope} (h : t.scopes[id]? = some scope) (hname : scope.find? name = none)
    (hparent : scope.parent = none) : Trail t name id [id] none
  | outward {id scope outer ids found} (h : t.scopes[id]? = some scope)
    (hname : scope.find? name = none) (hparent : scope.parent = some outer)
    (htrail : Trail t name outer ids found) : Trail t name id (id :: ids) found

theorem Trail.lookupFrom_eq {id : Nat} {ids : List Nat} {found : Option Symbol}
    (h : t.Trail name id ids found) {fuel : Nat} (hfuel : ids.length ≤ fuel) :
    t.lookupFrom name fuel id = found := by
  induction h generalizing fuel with
  | hit h hname =>
    obtain ⟨fuel, rfl⟩ := Nat.exists_eq_add_of_le' hfuel
    simp [lookupFrom, h, hname]
  | miss h hname hparent =>
    obtain ⟨fuel, rfl⟩ := Nat.exists_eq_add_of_le' hfuel
    simp [lookupFrom, h, hname, hparent]
  | outward h hname hparent htrail ih =>
    obtain ⟨fuel, rfl⟩ := Nat.exists_eq_add_of_le' (Nat.le_trans (Nat.le_add_left 1 _) hfuel)
    simp [lookupFrom, h, hname, hparent, ih (Nat.le_of_succ_le_succ hfuel)]

/-- A trail from an open scope visits scopes that are no further in, each at most once, and finds the
first hit among them. -/
theorem Linked.exists_trail (h : t.Linked) (name : String) {id : Nat} (hid : id < t.depth) :
    ∃ ids, t.Trail name id ids ((t.scopes.toList.take (id + 1)).reverse.findSome? (·.find? name)) ∧
      (∀ i ∈ ids, i ≤ id) ∧ ids.length ≤ id + 1 := by
  have hscope {id : Nat} (hid : id < t.scopes.size) : t.scopes[id]? = some t.scopes[id] :=
    Array.getElem?_eq_getElem hid
  have htake {id : Nat} (hid : id < t.scopes.size) : (t.scopes.toList.take (id + 1)).reverse =
      t.scopes[id] :: (t.scopes.toList.take id).reverse := by
    simp [List.take_add_one, hid]
  induction id with
  | zero =>
    rw [htake hid]
    refine ⟨[0], ?_, by simp, by simp⟩
    cases hname : t.scopes[0].find? name with
    | some symbol => simpa [hname] using Trail.hit (hscope hid) hname
    | none => simpa [hname] using Trail.miss (hscope hid) hname (h 0 _ (hscope hid))
  | succ id ih =>
    have hid : id + 1 < t.scopes.size := hid
    rw [htake hid]
    cases hname : t.scopes[id + 1].find? name with
    | some symbol =>
      refine ⟨[id + 1], ?_, by simp, by simp⟩
      simpa [hname] using Trail.hit (hscope hid) hname
    | none =>
      obtain ⟨ids, htrail, hle, hlength⟩ := ih (Nat.lt_of_succ_lt hid)
      refine ⟨(id + 1) :: ids, ?_, by grind, Nat.succ_le_succ hlength⟩
      rw [List.findSome?_cons, hname]
      exact .outward (hscope hid) hname (h _ _ (hscope hid)) htrail

/-- Looking a name up follows a trail from the innermost scope, and finds the first hit from there
outward. -/
theorem Linked.lookup (h : t.Linked) (name : String) :
    t.lookup name = (t.innermost :: t.around).findSome? (·.find? name) ∧
      ∃ ids, t.Trail name t.current ids (t.lookup name) ∧ (∀ id ∈ ids, id < t.depth) ∧
        ids.length ≤ t.depth := by
  have hcurrent : t.current + 1 = t.depth := Nat.sub_add_cancel t.size_pos
  obtain ⟨ids, htrail, hle, hlength⟩ := h.exists_trail name (Nat.lt_of_succ_le hcurrent.le)
  have htake : t.scopes.toList.take (t.current + 1) = t.scopes.toList :=
    List.take_of_length_le (by simp [hcurrent, depth])
  rw [htake, reverse_scopes] at htrail
  rw [hcurrent] at hlength
  have hlookup : t.lookup name = _ := htrail.lookupFrom_eq hlength
  exact ⟨hlookup, ids, hlookup ▸ htrail, fun id hid => by have := hle id hid; omega, hlength⟩

theorem Linked.parentOf? (h : t.Linked) (id : Nat) :
    t.parentOf? id = if 0 < id ∧ id ≤ t.current then some (id - 1) else none := by
  have hpos := t.size_pos
  unfold ScopeTable.parentOf? current depth
  cases hscope : t.scopes[id]? with
  | none =>
    rw [Array.getElem?_eq_none_iff] at hscope
    rw [if_neg (by omega)]
    rfl
  | some scope =>
    obtain ⟨hlt, -⟩ := Array.getElem?_eq_some_iff.1 hscope
    rw [Option.bind_some, h id scope hscope]
    grind

theorem linked_empty : empty.Linked := by
  rintro (_ | id) scope h <;> simp_all [empty]
  exact h ▸ rfl

/-- A table whose answers are those of a stack. -/
structure Shows (t : ScopeTable) (s : ScopeStack) : Prop where
  top : t.innermost.Holds s.top
  below : List.Forall₂ Scope.Holds t.around s.below
  linked : t.Linked

theorem shows_root : empty.Shows .root where
  top _ := rfl
  below := .nil
  linked := linked_empty

namespace Shows

variable (h : t.Shows s)
include h

theorem current_eq : t.current = s.current := by
  rw [← length_around, h.below.length_eq]
  rfl

theorem lookup_eq (name : String) : t.lookup name = s.lookup name := by
  have hfind {scopes : List Scope} {maps : List NameMap}
      (h : List.Forall₂ Scope.Holds scopes maps) :
      scopes.findSome? (·.find? name) = maps.findSome? (·.lookup name) := by
    induction h with
    | nil => rfl
    | cons h hs ih => rw [List.findSome?_cons, List.findSome?_cons, h name, ih]
  rw [(h.linked.lookup name).1, hfind (.cons h.top h.below), ScopeStack.lookup]

theorem insert (name : String) (symbol : Symbol) :
    (t.insert name symbol).Shows ⟨s.top.insert name symbol, s.below⟩ where
  top := by
    rw [innermost_insert]
    exact h.top.insert name symbol
  below := by
    rw [around_insert]
    exact h.below
  linked := linked_insert h.linked name symbol

theorem push : t.push.Shows ⟨∅, s.top :: s.below⟩ where
  top := by
    rw [innermost_push]
    exact fun _ => rfl
  below := by
    rw [around_push]
    exact .cons h.top h.below
  linked := linked_push h.linked

theorem lookupLocal_eq (name : String) : t.lookupLocal name = s.top.lookup name := h.top name

/-- Only the root stays when a scope is to be closed. -/
theorem pop : t.pop = (false, t) ∧ s.below = [] ∨
    ∃ m ms, s.below = m :: ms ∧ t.pop.1 = true ∧ t.pop.2.Shows ⟨m, ms⟩ := by
  have hlength : s.below.length = t.scopes.size - 1 := by
    rw [← h.below.length_eq, length_around, current, depth]
  by_cases hroot : t.scopes.size = 1
  · refine .inl ⟨by rw [ScopeTable.pop, dif_pos hroot], List.length_eq_zero_iff.1 ?_⟩
    rw [hlength, hroot]
  · have hpop : t.pop = (true, t.pop.2) ∧ t.pop.2.scopes = t.scopes.pop := by
      simp [ScopeTable.pop, hroot]
    obtain ⟨m, ms, hbelow⟩ : ∃ m ms, s.below = m :: ms := by
      have hpos := t.size_pos
      exact List.exists_cons_of_length_pos (by omega)
    have hscopes := reverse_scopes t.pop.2
    rw [hpop.2] at hscopes
    have hholds := h.below
    rw [around, hscopes, hbelow] at hholds
    obtain ⟨htop, hrest⟩ := List.forall₂_cons.1 hholds
    exact .inr ⟨m, ms, hbelow, congrArg Prod.fst hpop.1, htop, hrest, linked_pop h.linked⟩

/-- A request is answered as the stack answers it. -/
theorem serve (r : Request) :
    (t.serve r).1 = (s.serve r).1 ∧ (t.serve r).2.Shows (s.serve r).2 := by
  cases r with
  | push =>
    have hcurrent : t.push.current = s.current + 1 := by
      simpa [ScopeStack.current] using h.push.current_eq
    exact ⟨congrArg Answer.scope hcurrent, h.push⟩
  | pop =>
    obtain ⟨hpop, hbelow⟩ | ⟨m, ms, hbelow, hpop, hshows⟩ := h.pop
    · simp only [ScopeTable.serve, ScopeStack.serve, hpop, hbelow]
      exact ⟨trivial, h⟩
    · simp only [ScopeTable.serve, ScopeStack.serve, hpop, hbelow]
      exact ⟨trivial, hshows⟩
  | define name symbol =>
    have hmem : (t.lookupLocal name).isSome ↔ name ∈ s.top := by
      rw [h.lookupLocal_eq, Finmap.lookup_isSome]
    by_cases hname : name ∈ s.top
    · simp only [ScopeTable.serve, ScopeStack.serve, define, if_pos hname, if_pos (hmem.2 hname)]
      exact ⟨trivial, h⟩
    · simp only [ScopeTable.serve, ScopeStack.serve, define, if_neg hname,
        if_neg (mt hmem.1 hname)]
      exact ⟨trivial, h.insert name symbol⟩
  | shadow name symbol => exact ⟨congrArg Answer.symbol (h.top name), h.insert name symbol⟩
  | lookup name => exact ⟨congrArg Answer.symbol (h.lookup_eq name), h⟩
  | lookupLocal name => exact ⟨congrArg Answer.symbol (h.top name), h⟩
  | current => exact ⟨congrArg Answer.scope h.current_eq, h⟩
  | parentOf id =>
    refine ⟨congrArg Answer.parent ?_, h⟩
    rw [h.linked.parentOf?, h.current_eq]

theorem serveAll (requests : List Request) :
    (ScopeTable.serveAll ScopeTable.serve t requests).1 =
        (ScopeTable.serveAll ScopeStack.serve s requests).1 ∧
      (ScopeTable.serveAll ScopeTable.serve t requests).2.Shows
        (ScopeTable.serveAll ScopeStack.serve s requests).2 := by
  induction requests generalizing t s with
  | nil => exact ⟨rfl, h⟩
  | cons r rs ih =>
    obtain ⟨hanswer, hshows⟩ := h.serve r
    obtain ⟨hanswers, hafter⟩ := ih hshows
    exact ⟨congrArg₂ List.cons hanswer hanswers, hafter⟩

end Shows

/-- What is not done changes nothing. -/
theorem serve_of_not_done {r : Request} (h : (t.serve r).1 = .done false) : (t.serve r).2 = t := by
  cases r with
  | pop =>
    have h : t.pop.1 = false := by injection h
    simp only [serve]
    unfold ScopeTable.pop at h ⊢
    split at h
    · simp [*]
    · cases h
  | define name symbol =>
    have h : (t.define name symbol).1 = false := by injection h
    simp only [serve]
    unfold define at h ⊢
    split at h
    · simp [*]
    · cases h
  | _ => cases h

/-- How many scopes are open above some scope after a request, unless that scope would be closed. -/
def Request.above : Nat → Request → Option Nat
  | n, .push => some (n + 1)
  | 0, .pop => none
  | n + 1, .pop => some n
  | n, _ => some n

/-- Requests that close every scope that they open and no other. -/
def Balanced (requests : List Request) : Prop := requests.foldlM Request.above 0 = some 0

/-- So many scopes are open above the innermost scope of the first table, and all scopes around that
one are the same. -/
structure Above (n : Nat) (s t : ScopeTable) : Prop where
  depth_eq : t.depth = s.depth + n
  scope_eq : ∀ id < s.current, t.scopes[id]? = s.scopes[id]?

theorem Above.trans_sameAround {n : Nat} {s t u : ScopeTable} (h : s.Above n t)
    (hu : t.SameAround u) : s.Above n u := by
  refine ⟨hu.depth_eq.trans h.depth_eq, fun id hid => (hu.scope_eq id ?_).trans (h.scope_eq id hid)⟩
  have hdepth := h.depth_eq
  simp only [current] at hid ⊢
  omega

theorem Above.push {n : Nat} {s t : ScopeTable} (h : s.Above n t) : s.Above (n + 1) t.push := by
  have hdepth := h.depth_eq
  simp only [depth] at hdepth
  refine ⟨by simp only [depth, ScopeTable.push, Array.size_push]; omega, fun id hid => ?_⟩
  rw [← h.scope_eq id hid]
  simp only [current, depth] at hid
  simp only [ScopeTable.push, Array.getElem?_push]
  exact if_neg (by omega)

theorem Above.pop {n : Nat} {s t : ScopeTable} (h : s.Above (n + 1) t) : s.Above n t.pop.2 := by
  have hdepth := h.depth_eq
  have hpos := s.size_pos
  simp only [depth] at hdepth
  have hpop : t.pop.2.scopes = t.scopes.pop := by
    rw [ScopeTable.pop, dif_neg (by omega)]
  refine ⟨by simp only [depth, hpop, Array.size_pop]; omega, fun id hid => ?_⟩
  rw [← h.scope_eq id hid, hpop, Array.getElem?_pop]
  simp only [current, depth] at hid
  exact if_pos (by omega)

theorem sameAround_define (t : ScopeTable) (name : String) (symbol : Symbol) :
    t.SameAround (t.define name symbol).2 := by
  unfold define
  split
  · exact .refl t
  · exact t.sameAround_insert name symbol

theorem Above.serve {n n' : Nat} {s t : ScopeTable} (h : s.Above n t) {r : Request}
    (hr : r.above n = some n') : s.Above n' (t.serve r).2 := by
  cases r with
  | push =>
    obtain rfl : n + 1 = n' := Option.some.inj hr
    exact h.push
  | pop =>
    cases n with
    | zero => cases hr
    | succ n =>
      obtain rfl : n = n' := Option.some.inj hr
      exact h.pop
  | define name symbol =>
    obtain rfl : n = n' := by cases n <;> exact Option.some.inj hr
    exact h.trans_sameAround (t.sameAround_define name symbol)
  | shadow name symbol =>
    obtain rfl : n = n' := by cases n <;> exact Option.some.inj hr
    exact h.trans_sameAround (t.sameAround_insert name symbol)
  | _ =>
    obtain rfl : n = n' := by cases n <;> exact Option.some.inj hr
    exact h

theorem Above.serveAll {n n' : Nat} {s t : ScopeTable} (h : s.Above n t) {rs : List Request}
    (hrs : rs.foldlM Request.above n = some n') :
    s.Above n' (ScopeTable.serveAll ScopeTable.serve t rs).2 := by
  induction rs generalizing n t with
  | nil =>
    obtain rfl : n = n' := Option.some.inj hrs
    exact h
  | cons r rs ih =>
    rw [List.foldlM_cons] at hrs
    obtain ⟨m, hr, hrs⟩ := Option.bind_eq_some_iff.1 hrs
    exact ih (h.serve hr) hrs

/-- What happens in a scope is forgotten when it closes. -/
theorem Balanced.pop_push {inner : List Request} (h : Balanced inner) (t : ScopeTable) :
    (serveAll serve t.push inner).2.pop = (true, t) := by
  have habove : t.push.Above 0 (serveAll serve t.push inner).2 :=
    Above.serveAll ⟨rfl, fun _ _ => rfl⟩ h
  have hdepth : (serveAll serve t.push inner).2.scopes.size = t.scopes.size + 1 := by
    simpa [depth, push] using habove.depth_eq
  have hpos := t.size_pos
  refine Prod.ext ?_ (pop_of_sameAround_push ⟨habove.depth_eq, habove.scope_eq⟩)
  rw [pop, dif_neg (by omega)]

/-- A table of chained scopes is a stack of finite maps. Whatever it is asked for, in whatever order,
it answers what the stack answers: a scope is known by its place, the scope around it is the one just
below, a name is found at the first hit from the top down, it is declared unless the top has it, and
the root is never closed. What is refused changes nothing. Looking a name up never leaves the table
and comes to an end. What is asked for between the opening of a scope and its closing leaves the table
as it was before. -/
theorem serveAll_refines (requests : List Request) :
    let t := (serveAll serve empty requests).2
    (serveAll serve empty requests).1 = (serveAll ScopeStack.serve .root requests).1 ∧
    t.Shows (serveAll ScopeStack.serve .root requests).2 ∧
    (∀ r, (t.serve r).1 = .done false → (t.serve r).2 = t) ∧
    (∀ name, ∃ ids, t.Trail name t.current ids (t.lookup name) ∧ (∀ id ∈ ids, id < t.depth) ∧
      ids.length ≤ t.depth) ∧
    ∀ inner, Balanced inner → (serveAll serve t.push inner).2.pop = (true, t) := by
  intro t
  obtain ⟨hanswers, hshows⟩ := shows_root.serveAll requests
  exact ⟨hanswers, hshows, fun _ => serve_of_not_done, fun name => (hshows.linked.lookup name).2,
    fun _ h => h.pop_push t⟩

/-- A constant that is declared, hidden by a variable in a scope of its own, and declared again in
vain. -/
theorem serveAll_refines_hidden :
    let constant : Symbol := .constant "x" (.never ⟨.bang, "!", ⟨.origin "t", .origin "t"⟩⟩)
    let inner : List Request := [.push, .shadow "x" (.var "x" none false), .pop, .lookup "x"]
    let t := (serveAll serve empty [.define "x" constant]).2
    ((t.serve (.define "x" constant)).1 = .done false ∧ (t.serve (.define "x" constant)).2 = t) ∧
    Balanced inner ∧ (serveAll serve t.push inner).2.pop = (true, t) := by
  intro constant inner t
  obtain ⟨-, -, hrefused, -, hinner⟩ := serveAll_refines [.define "x" constant]
  have hdone : (t.serve (.define "x" constant)).1 = .done false := rfl
  have hbalanced : Balanced inner := rfl
  exact ⟨⟨hdone, hrefused _ hdone⟩, hbalanced, hinner inner hbalanced⟩

end ScopeTable

end FrontEnd
