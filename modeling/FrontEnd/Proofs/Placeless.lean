import FrontEnd.Proofs.Gives
import FrontEnd.Proofs.LockedRules
/-!
# Places do not matter

Two lists of tokens of the same kinds and texts are read alike, wherever the tokens stand: to the same
tree but for the spans in it, or to an error of the same cause.
-/
namespace FrontEnd

/-- Two states in which the tokens ahead differ at most in where they stand, and the names at most in
what reading does not ask of them. -/
structure ParseState.Resembles (s s' : ParseState) : Prop where
  ahead_eq : s.cursor.ahead.map Token.bare = s'.cursor.ahead.map Token.bare
  outline_eq : s.toNames.outline = s'.toNames.outline
  depth_eq : s.depth = s'.depth
  literals_eq : s.structLiterals = s'.structLiterals

namespace ParseState.Resembles

variable {s s' : ParseState} (h : s.Resembles s')
include h

theorem kindAhead_eq (n : Nat) : s.cursor.kindAhead n = s'.cursor.kindAhead n := by
  have hkind : kindAt s.cursor.ahead n = kindAt s'.cursor.ahead n := by
    rw [← kindAt_map_bare, h.ahead_eq, kindAt_map_bare]
  exact hkind

theorem current_eq : (s.cursor.ahead? 0).map Token.bare = (s'.cursor.ahead? 0).map Token.bare := by
  have hhead := congrArg (·[0]?) h.ahead_eq
  simpa [Cursor.ahead?] using hhead

theorem advance (hk : s.cursor.kind ≠ .eof) : ∃ t t', s.cursor.ahead? 0 = some t ∧
    s'.cursor.ahead? 0 = some t' ∧ t.bare = t'.bare ∧
    Resembles { s with cursor := s.cursor.advance } { s' with cursor := s'.cursor.advance } := by
  obtain ⟨t, ht⟩ := Cursor.exists_of_kind_ne hk
  have hcurrent := h.current_eq
  rw [ht] at hcurrent
  obtain ⟨t', ht', hbare⟩ := Option.map_eq_some_iff.mp hcurrent.symm
  refine ⟨t, t', ht, ht', hbare.symm, ?_, h.outline_eq, h.depth_eq, h.literals_eq⟩
  rw [Cursor.ahead_advance, Cursor.ahead_advance, List.map_tail, List.map_tail, h.ahead_eq]

theorem cause_unexpected (expected : String) :
    (s.cursor.unexpected expected).cause = (s'.cursor.unexpected expected).cause := by
  have hahead := h.ahead_eq
  unfold Cursor.unexpected
  match hs : s.cursor.ahead, hs' : s'.cursor.ahead with
  | [], [] => rfl
  | t :: _, t' :: _ =>
    rw [hs, hs'] at hahead
    have ht : t.bare = t'.bare := (List.cons.inj hahead).1
    simp only [Token.kind_of_bare ht, Token.value_of_bare ht]
    split <;> rfl
  | [], _ :: _ | _ :: _, [] => simp [hs, hs'] at hahead

theorem withNames {n n' : Names} (hn : n.outline = n'.outline) :
    Resembles { s with toNames := n } { s' with toNames := n' } :=
  ⟨h.ahead_eq, hn, h.depth_eq, h.literals_eq⟩

theorem declare {symbol symbol' : Symbol} (hs : symbol.outline = symbol'.outline)
    (place place' : Position) :
    Resembles { s with toNames := s.declare symbol place }
      { s' with toNames := s'.declare symbol' place' } :=
  h.withNames (Names.outline_declare h.outline_eq hs place place')

end ParseState.Resembles

def Lockstep.placeless (options : ParseOptions) : Lockstep where
  limit := options.maxDepth
  resolve := options.resolvePatterns
  resolve' := options.resolvePatterns
  left := .bare
  right := .bare
  states := ParseState.Resembles
  errors _ _ e e' := e.cause = e'.cause
  constants_eq := rfl
  depth_eq h := h.depth_eq
  literals_eq h := h.literals_eq
  setDepth _ h := ⟨h.ahead_eq, h.outline_eq, rfl, h.literals_eq⟩
  setLiterals _ h := ⟨h.ahead_eq, h.outline_eq, h.depth_eq, rfl⟩
  push h := h.withNames (Names.outline_push h.outline_eq)
  pop h := h.withNames (Names.outline_pop h.outline_eq)
  kind_eq h := h.kindAhead_eq 0
  next_eq h _ := h.kindAhead_eq 1
  afterNext_eq h _ _ := h.kindAhead_eq 2
  take h hk := h.advance hk
  spanFrom _ _ := rfl
  current h := .inl h.current_eq
  unexpected x h := h.cause_unexpected x
  tooDeep _ := rfl
  constant {s s' t t'} h ht _ := by
    have ht : t.bare = t'.bare := ht
    rw [Token.value_of_bare ht, Names.isConstant_outline h.outline_eq]
    exact .inl rfl
  bindPattern {s s' p p' a a'} h hp _ := by
    have hp : p.bare = p'.bare := p.view_bare.symm.trans (hp.trans p'.view_bare)
    exact h.withNames (Names.outline_bindAll h.outline_eq (Symbol.outline_ofPattern_of_bare hp a' a))
  declareSelf h _ _ := by
    refine h.declare ?_ _ _
    rfl
  declareParam {s s' t t' a a'} h ht _ := by
    have ht : t.bare = t'.bare := ht
    refine h.declare ?_ _ _
    rw [Token.value_of_bare ht]
    rfl
  declareMember {s s' m m' place place'} h hm _ := by
    have hm : m.bare = m'.bare := m.view_bare.symm.trans (hm.trans m'.view_bare)
    refine h.declare ?_ _ _
    rw [← Symbol.outline_ofMember_bare, hm, Symbol.outline_ofMember_bare]
  declareItem {s s' i i'} h hi := by
    have hi : i.bare = i'.bare := i.view_bare.symm.trans (hi.trans i'.view_bare)
    refine h.declare ?_ _ _
    rw [← Symbol.outline_ofItem_bare, hi, Symbol.outline_ofItem_bare]

/-- Tokens that differ at most in where they stand are read to trees that differ at most in their
spans, or fail with errors that differ at most in their places. -/
theorem parse_placeless {tokens tokens' : List Token}
    (h : tokens.map Token.bare = tokens'.map Token.bare) (file : String) (options : ParseOptions) :
    (∃ c c' s s', parse tokens file options = .ok c s ∧ parse tokens' file options = .ok c' s' ∧
      c.bare = c'.bare) ∨
    (∃ e e' s s', parse tokens file options = .error e s ∧
      parse tokens' file options = .error e' s' ∧ e.cause = e'.cause) := by
  have hstart : (Lockstep.placeless options).states (.initial tokens file) (.initial tokens' file) :=
    ⟨h, rfl, rfl, rfl⟩
  rcases (Lockstep.placeless options).parse_alike hstart with
    ⟨items, items', s, s', h, h', hitems, -⟩ | ⟨e, e', s, s', h, h', he, -⟩
  · refine .inl ⟨_, _, s, s', h, h', ?_⟩
    have hview : Item.view .bare = Item.bare := funext Item.view_bare
    have hitems : items.map (Item.view .bare) = items'.map (Item.view .bare) := hitems
    rw [Crate.bare, Crate.bare, ← hview, hitems]
  · exact .inr ⟨e, e', s, s', h, h', he⟩

end FrontEnd
