import FrontEnd.Proofs.LockedRules
/-!
# Patterns that are names

Whether a pattern that is a name alone binds it or means a constant is asked of the scopes, unless the
reader is told not to ask. The answer changes what is brought into scope and so later answers, but
nothing else: neither which tokens are taken nor what fails and where.
-/
namespace FrontEnd

/-- The view in which a pattern that is a name alone always binds it. -/
def View.binding : View := ⟨fun place => place, fun _ text => text, false⟩

theorem Path.view_binding (p : Path) : p.view .binding = p := by
  have hspan : View.binding.span p.span = p.span := rfl
  have htoken : Token.view .binding = id := rfl
  simp [Path.view, hspan, htoken]

/-- A path of one identifier is seen as the variable of this name. -/
theorem Pattern.view_binding_name {t : Token} {span : Span} (h : t.kind = .identifier) :
    (Pattern.path ⟨[t], span⟩).view .binding = .identifier t false false none span :=
  if_pos ⟨rfl, h⟩

/-- Other paths are seen as they are. -/
theorem Pattern.view_binding_path {p : Path} (h : ∀ t, p.segments = [t] → t.kind ≠ .identifier) :
    (Pattern.path p).view .binding = .path p := by
  obtain ⟨ts, span⟩ := p
  match ts with
  | [] => rfl
  | [t] => exact if_neg fun ⟨_, hk⟩ => h t rfl hk
  | _ :: _ :: _ => exact congrArg Pattern.path (Path.view_binding _)

/-- A reading that looks up names against one that does not. The scopes need not have anything in
common. -/
def Lockstep.resolution (limit : Nat) : Lockstep where
  limit := limit
  resolve := true
  resolve' := false
  left := .binding
  right := .binding
  states s s' := s.cursor = s'.cursor ∧ s.depth = s'.depth ∧ s.structLiterals = s'.structLiterals
  errors _ _ e e' := e = e'
  constants_eq := rfl
  depth_eq h := h.2.1
  literals_eq h := h.2.2
  setDepth _ h := ⟨h.1, rfl, h.2.2⟩
  setLiterals _ h := ⟨h.1, h.2.1, rfl⟩
  push h := h
  pop h := h
  kind_eq h := by rw [h.1]
  next_eq h _ := by rw [h.1]
  afterNext_eq h _ _ := by rw [h.1]
  take {s s'} h hk := by
    obtain ⟨t, ht⟩ := Cursor.exists_of_kind_ne hk
    exact ⟨t, t, ht, h.1 ▸ ht, rfl, by rw [h.1], h.2⟩
  spanFrom {s s' a a'} h ha := by
    obtain rfl : a = a' := ha
    rw [h.1]
    rfl
  current {s s'} h := by
    rw [h.1]
    exact .inl rfl
  unexpected x h := by rw [h.1]
  tooDeep h := by rw [h.1]
  constant _ _ _ := .inr rfl
  bindPattern h _ _ := h
  declareSelf h _ _ := h
  declareParam h _ _ := h
  declareMember h _ _ := h
  declareItem h _ := h

/-- Looking up names changes nothing that is accepted: a file is either refused with the same error
at the same place with and without it, or read to trees that differ only in patterns that are a name
alone, which may be paths in the one and are variables in the other. -/
theorem parse_resolvePatterns (tokens : List Token) (file : String) (maxDepth : Nat) :
    (∃ e s s', parse tokens file ⟨maxDepth, true⟩ = .error e s ∧
      parse tokens file ⟨maxDepth, false⟩ = .error e s') ∨
    (∃ c c' s s', parse tokens file ⟨maxDepth, true⟩ = .ok c s ∧
      parse tokens file ⟨maxDepth, false⟩ = .ok c' s' ∧ c.view .binding = c'.view .binding) := by
  have hstart : (Lockstep.resolution maxDepth).states (.initial tokens file) (.initial tokens file) :=
    ⟨rfl, rfl, rfl⟩
  rcases (Lockstep.resolution maxDepth).parse_alike hstart with
    ⟨items, items', t, t', h, h', hitems, ht⟩ | ⟨e, e', t, t', h, h', rfl, -⟩
  · refine .inr ⟨_, _, t, t', h, h', ?_⟩
    have hitems : items.map (Item.view .binding) = items'.map (Item.view .binding) := hitems
    rw [Crate.view, Crate.view, hitems, ht.1]
  · exact .inl ⟨e, t, t', h, h'⟩

end FrontEnd
