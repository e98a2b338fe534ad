import FrontEnd.Proofs.Invariant
/-!
# What every run gives back

Whatever comes of reading a phrase, the levels of nesting that it entered are left again, the scopes
that it opened are closed, and struct literals are allowed or not as before. Of the scopes around it
only the innermost can change, and no redefinition is forgotten.
-/
namespace FrontEnd

/-- As many scopes are open in both tables, and all but the innermost are the same. -/
structure ScopeTable.SameAround (s t : ScopeTable) : Prop where
  depth_eq : t.depth = s.depth
  scope_eq : ∀ id < s.current, t.scopes[id]? = s.scopes[id]?

namespace ScopeTable

theorem ext_scopes {s t : ScopeTable} (h : s.scopes = t.scopes) : s = t := by
  cases s; cases t; cases h; rfl

theorem SameAround.refl (s : ScopeTable) : s.SameAround s := ⟨rfl, fun _ _ => rfl⟩

theorem SameAround.trans {s t u : ScopeTable} (h : s.SameAround t) (h' : t.SameAround u) :
    s.SameAround u := by
  refine ⟨h'.depth_eq.trans h.depth_eq, fun id hid => ?_⟩
  have hid' : id < t.current := by simpa [current, h.depth_eq] using hid
  exact (h'.scope_eq id hid').trans (h.scope_eq id hid)

theorem sameAround_insert (s : ScopeTable) (name : String) (symbol : Symbol) :
    s.SameAround (s.insert name symbol) := by
  refine ⟨by simp [insert, depth], fun id hid => ?_⟩
  have hne : s.current ≠ id := by omega
  simp [insert, Array.getElem?_modify, hne]

/-- What is done inside a scope is undone when the scope closes. -/
theorem pop_of_sameAround_push {s t : ScopeTable} (h : s.push.SameAround t) : t.pop.2 = s := by
  have hsize : t.scopes.size = s.scopes.size + 1 := by
    simpa [depth, push] using h.depth_eq
  have hmany : t.scopes.size ≠ 1 := by have := s.size_pos; omega
  refine ext_scopes ?_
  simp only [pop, hmany, dite_false]
  refine Array.ext_getElem? fun id => ?_
  by_cases hid : id < s.scopes.size
  · have hpush : id < s.push.current := by simpa [current, depth, push] using hid
    have hsame : t.scopes[id]? = s.push.scopes[id]? := h.scope_eq id hpush
    simp only [Array.getElem?_pop, hsize, push, Array.getElem?_push] at hsame ⊢
    simp [hsame, hid]
    omega
  · have hpop : t.scopes.pop.size ≤ id := by simp [hsize]; omega
    rw [Array.getElem?_eq_none hpop, Array.getElem?_eq_none (by omega)]

end ScopeTable

namespace Names

theorem scopes_declare (n : Names) (symbol : Symbol) (place : Position) :
    n.scopes.SameAround (n.declare symbol place).scopes := by
  unfold declare ScopeTable.define
  split <;> rename_i heq <;> split at heq <;> cases heq
  · exact n.scopes.sameAround_insert _ _
  · exact .refl _

theorem redefinitions_declare (n : Names) (symbol : Symbol) (place : Position) :
    n.redefinitions <+: (n.declare symbol place).redefinitions := by
  unfold declare ScopeTable.define
  split <;> simp

end Names

/-- What a run of any phrase leaves as it was. -/
structure ParseState.Kept (s t : ParseState) : Prop where
  depth_eq : t.depth = s.depth
  structLiterals_eq : t.structLiterals = s.structLiterals
  scopes : s.scopes.SameAround t.scopes
  redefinitions : s.redefinitions <+: t.redefinitions

namespace ParseState.Kept

theorem refl (s : ParseState) : s.Kept s := ⟨rfl, rfl, .refl _, List.prefix_refl _⟩

theorem trans {s t u : ParseState} (h : s.Kept t) (h' : t.Kept u) : s.Kept u :=
  ⟨h'.depth_eq.trans h.depth_eq, h'.structLiterals_eq.trans h.structLiterals_eq,
    h.scopes.trans h'.scopes, h.redefinitions.trans h'.redefinitions⟩

theorem act {β : Type} (options : ParseOptions) (a : Act β) (s : ParseState) :
    s.Kept (a.run options s).2 := by
  cases a with
  | take =>
    simp only [Act.run]
    split
    · exact ⟨rfl, rfl, .refl _, List.prefix_refl _⟩
    · exact refl s
  | declare symbol place =>
    exact ⟨rfl, rfl, s.scopes_declare symbol place, s.redefinitions_declare symbol place⟩
  | bind symbol => exact ⟨rfl, rfl, s.scopes.sameAround_insert _ _, List.prefix_refl _⟩
  | _ => exact refl s

theorem scopes_pop {s t : ParseState} (h : Kept { s with toNames := s.push } t) :
    t.pop.scopes = s.scopes :=
  ScopeTable.pop_of_sameAround_push h.scopes

theorem invariant (options : ParseOptions) : Invariant options ParseState.Kept where
  refl := refl
  trans _ _ _ h h' := h.trans h'
  act a s := act options a s
  nested _ h := ⟨by simp [h.depth_eq], h.structLiterals_eq, h.scopes, h.redefinitions⟩
  inScope {s t} h := by
    refine ⟨h.depth_eq, h.structLiterals_eq, ?_, h.redefinitions⟩
    show s.scopes.SameAround t.pop.scopes
    exact h.scopes_pop ▸ .refl _
  structLiterals _ h := ⟨h.depth_eq, rfl, h.scopes, h.redefinitions⟩

end ParseState.Kept

namespace Phrase

theorem run_kept {α : Type} (p : Phrase α) (options : ParseOptions) (fuel : Nat) :
    (p.run options (Goal.read options fuel)).Keeps ParseState.Kept :=
  (ParseState.Kept.invariant options).run ((ParseState.Kept.invariant options).goal fuel) p

/-- Every run leaves the levels of nesting and the scopes that it entered. -/
theorem read_kept {α : Type} (p : Phrase α) (options : ParseOptions) :
    (p.read options).Keeps ParseState.Kept :=
  p.run_kept options options.maxDepth

end Phrase

end FrontEnd
