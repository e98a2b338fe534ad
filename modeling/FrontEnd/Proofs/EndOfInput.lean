import FrontEnd.Proofs.LockedRules
/-!
# The end of the input

A token of kind `eof` ends the input wherever it stands: what follows it is never read. It can also
be left out, since the input ends after the last token anyway. Only errors about an input that ended
too early tell the difference.
-/
namespace FrontEnd

/-- Tokens of which none ends the input. -/
def Endless (ts : List Token) : Prop := ∀ t ∈ ts, t.kind ≠ .eof

/-- What may follow the last token: nothing, or a token that ends the input and anything after it. -/
def IsEnd (e : List Token) : Prop := ∀ t ∈ e.head?, t.kind = .eof

/-- Two cursors that differ at most in what ends their inputs. -/
def Cursor.SameUpTo (e e' : List Token) (c c' : Cursor) : Prop :=
  ∃ passed ts beyond file, Endless ts ∧ c = ⟨passed, ts ++ e, beyond, file⟩ ∧
    c' = ⟨passed, ts ++ e', beyond, file⟩

/-- Two errors that differ at most in the place and in what was expected where the input ended. -/
def SyntaxError.Akin (x x' : SyntaxError) : Prop :=
  (∃ expected expected', x.cause = .unexpectedEndOfInput expected ∧
    x'.cause = .unexpectedEndOfInput expected') ∨
  ∃ limit, x.cause = .nestingTooDeep limit ∧ x'.cause = .nestingTooDeep limit

theorem kindAt_of_isEnd {e : List Token} (he : IsEnd e) : kindAt e 0 = .eof := by
  cases e with
  | nil => rfl
  | cons t ts => exact he t rfl

namespace Cursor

theorem cause_unexpected {c : Cursor} (h : c.kind = .eof) (expected : String) :
    (c.unexpected expected).cause = .unexpectedEndOfInput expected := by
  obtain ⟨passed, _ | ⟨t, ts⟩, beyond, file⟩ := c
  · rfl
  · have ht : t.kind = .eof := h
    simp [unexpected, ht]

theorem nextKind_advance {c : Cursor} {t : Token} (h : c.ahead? 0 = some t) :
    c.advance.kindAhead 1 = c.kindAhead 2 := by
  obtain ⟨passed, _ | ⟨u, us⟩, beyond, file⟩ := c <;> cases h
  rfl

end Cursor

namespace Cursor.SameUpTo

variable {e e' : List Token} {c c' : Cursor} (h : SameUpTo e e' c c')
include h

theorem ahead_of_end (hk : c.kind = .eof) : c.ahead = e ∧ c'.ahead = e' := by
  obtain ⟨passed, ts, beyond, file, hts, rfl, rfl⟩ := h
  cases ts with
  | nil => exact ⟨rfl, rfl⟩
  | cons t ts => exact absurd hk (hts t (.head ts))

theorem spanFrom_eq (start : Span) : c.spanFrom start = c'.spanFrom start := by
  obtain ⟨passed, ts, beyond, file, hts, rfl, rfl⟩ := h
  rfl

/-- Where the same token is current, or none, errors are the same. -/
theorem unexpected_eq_of_head (hhead : c.ahead.head? = c'.ahead.head?) :
    c.position = c'.position ∧ ∀ expected, c.unexpected expected = c'.unexpected expected := by
  obtain ⟨passed, ts, beyond, file, hts, rfl, rfl⟩ := h
  match hl : ts ++ e, hl' : ts ++ e' with
  | [], [] => exact ⟨rfl, fun _ => rfl⟩
  | t :: _, t' :: _ =>
    rw [hl, hl'] at hhead
    obtain rfl : t = t' := Option.some.inj hhead
    exact ⟨rfl, fun _ => rfl⟩
  | [], _ :: _ | _ :: _, [] =>
    rw [hl, hl'] at hhead
    exact absurd hhead nofun

section Ends

variable (he : IsEnd e)
include he

/-- Before the end the same token is current, and the cursors after it are the same up to the end. -/
theorem cons (hk : c.kind ≠ .eof) : ∃ t, c.ahead? 0 = some t ∧ c'.ahead? 0 = some t ∧
    SameUpTo e e' c.advance c'.advance := by
  obtain ⟨passed, ts, beyond, file, hts, rfl, rfl⟩ := h
  cases ts with
  | nil => exact absurd (kindAt_of_isEnd he) hk
  | cons t ts =>
    exact ⟨t, rfl, rfl, t :: passed, ts, beyond, file, fun u hu => hts u (.tail t hu), rfl, rfl⟩

/-- The same token is current or none, or the ends of the inputs are reached and differ. -/
theorem head_eq_or : c.ahead.head? = c'.ahead.head? ∨
    c.kind = .eof ∧ c.ahead = e ∧ c'.ahead = e' ∧ e.head? ≠ e'.head? := by
  by_cases hk : c.kind = .eof
  · obtain ⟨hahead, hahead'⟩ := h.ahead_of_end hk
    rw [hahead, hahead']
    exact (Classical.em (e.head? = e'.head?)).imp_right fun hne => ⟨hk, rfl, rfl, hne⟩
  · obtain ⟨t, ht, ht', -⟩ := h.cons he hk
    left
    rw [List.head?_eq_getElem?, List.head?_eq_getElem?]
    exact ht.trans ht'.symm

variable (he' : IsEnd e')
include he'

theorem kind_eq : c.kind = c'.kind := by
  obtain ⟨passed, ts, beyond, file, hts, rfl, rfl⟩ := h
  cases ts with
  | nil => exact (kindAt_of_isEnd he).trans (kindAt_of_isEnd he').symm
  | cons t ts => rfl

theorem next_eq (hk : c.kind ≠ .eof) : c.kindAhead 1 = c'.kindAhead 1 := by
  obtain ⟨t, ht, ht', hadvance⟩ := h.cons he hk
  rw [← kind_advance ht, ← kind_advance ht', hadvance.kind_eq he he']

theorem afterNext_eq (hk : c.kind ≠ .eof) (hn : c.kindAhead 1 ≠ .eof) :
    c.kindAhead 2 = c'.kindAhead 2 := by
  obtain ⟨t, ht, ht', hadvance⟩ := h.cons he hk
  rw [← nextKind_advance ht, ← nextKind_advance ht',
    hadvance.next_eq he he' (kind_advance ht ▸ hn)]

end Ends

end Cursor.SameUpTo

/-- Two states that differ at most in what ends the input. -/
structure ParseState.SameUpTo (e e' : List Token) (s s' : ParseState) : Prop where
  names_eq : s.toNames = s'.toNames
  depth_eq : s.depth = s'.depth
  literals_eq : s.structLiterals = s'.structLiterals
  cursors : s.cursor.SameUpTo e e' s'.cursor

namespace ParseState.SameUpTo

variable {e e' : List Token} {s s' : ParseState} (h : SameUpTo e e' s s')
include h

theorem declare (symbol : Symbol) (place : Position) :
    SameUpTo e e' { s with toNames := s.declare symbol place }
      { s' with toNames := s'.declare symbol place } :=
  ⟨congrArg (Names.declare · symbol place) h.names_eq, h.depth_eq, h.literals_eq, h.cursors⟩

theorem bindAll (symbols : List Symbol) :
    SameUpTo e e' { s with toNames := s.bindAll symbols }
      { s' with toNames := s'.bindAll symbols } :=
  ⟨congrArg (Names.bindAll · symbols) h.names_eq, h.depth_eq, h.literals_eq, h.cursors⟩

end ParseState.SameUpTo

/-- What two readings may have in common where they fail: the error, or that the input ended. -/
def Cursor.FailAlike (e e' : List Token) (c c' : Cursor) (x x' : SyntaxError) : Prop :=
  x = x' ∨ c.ahead = e ∧ c'.ahead = e' ∧ e.head? ≠ e'.head? ∧ x.Akin x'

theorem optionTy_eq_of_view_all {a a' : Option Ty} (h : View.all.Alike .all a a') : a = a' := by
  have hview : Ty.view .all = id := funext Ty.view_all
  have h : a.map (Ty.view .all) = a'.map (Ty.view .all) := h
  simpa [hview] using h

def Lockstep.ends (options : ParseOptions) {e e' : List Token} (he : IsEnd e) (he' : IsEnd e') :
    Lockstep where
  limit := options.maxDepth
  resolve := options.resolvePatterns
  resolve' := options.resolvePatterns
  left := .all
  right := .all
  states := ParseState.SameUpTo e e'
  errors := Cursor.FailAlike e e'
  constants_eq := rfl
  depth_eq h := h.depth_eq
  literals_eq h := h.literals_eq
  setDepth _ h := ⟨h.names_eq, rfl, h.literals_eq, h.cursors⟩
  setLiterals _ h := ⟨h.names_eq, h.depth_eq, rfl, h.cursors⟩
  push h := ⟨congrArg Names.push h.names_eq, h.depth_eq, h.literals_eq, h.cursors⟩
  pop h := ⟨congrArg Names.pop h.names_eq, h.depth_eq, h.literals_eq, h.cursors⟩
  kind_eq h := h.cursors.kind_eq he he'
  next_eq h := h.cursors.next_eq he he'
  afterNext_eq h := h.cursors.afterNext_eq he he'
  take h hk := by
    obtain ⟨t, ht, ht', hadvance⟩ := h.cursors.cons he hk
    exact ⟨t, t, ht, ht', rfl, h.names_eq, h.depth_eq, h.literals_eq, hadvance⟩
  spanFrom {s s' a a'} h ha := by
    obtain rfl : a = a' := ha
    exact congrArg View.all.span (h.cursors.spanFrom_eq a)
  current {s s'} h := by
    rcases h.cursors.head_eq_or he with hhead | ⟨hk, hahead, hahead', hne⟩
    · have hcurrent : s.cursor.ahead? 0 = s'.cursor.ahead? 0 := by
        simpa [Cursor.ahead?, List.head?_eq_getElem?] using hhead
      exact .inl (congrArg (Option.map (Token.view .all)) hcurrent)
    · have hk' := (h.cursors.kind_eq he he').symm.trans hk
      exact .inr ⟨hk, fun x y _ => .inr ⟨hahead, hahead', hne, .inl ⟨x, y,
        Cursor.cause_unexpected hk x, Cursor.cause_unexpected hk' y⟩⟩⟩
  unexpected {s s'} x h := by
    rcases h.cursors.head_eq_or he with hhead | ⟨hk, hahead, hahead', hne⟩
    · exact .inl ((h.cursors.unexpected_eq_of_head hhead).2 x)
    · have hk' := (h.cursors.kind_eq he he').symm.trans hk
      exact .inr ⟨hahead, hahead', hne, .inl ⟨x, x,
        Cursor.cause_unexpected hk x, Cursor.cause_unexpected hk' x⟩⟩
  tooDeep h := by
    rcases h.cursors.head_eq_or he with hhead | ⟨-, hahead, hahead', hne⟩
    · rw [(h.cursors.unexpected_eq_of_head hhead).1]
      exact .inl rfl
    · exact .inr ⟨hahead, hahead', hne, .inr ⟨_, rfl, rfl⟩⟩
  constant {s s' t t'} h ht _ := by
    obtain rfl : t = t' := ht
    rw [h.names_eq]
    exact .inl rfl
  bindPattern {s s' p p' a a'} h hp ha := by
    obtain rfl : p = p' := p.view_all.symm.trans (hp.trans p'.view_all)
    obtain rfl := optionTy_eq_of_view_all ha
    exact h.bindAll _
  declareSelf {s s' a a' mutable place place'} h ha hplace := by
    obtain rfl : place = place' := hplace
    obtain rfl := optionTy_eq_of_view_all ha
    exact h.declare _ _
  declareParam {s s' t t' a a'} h ht ha := by
    obtain rfl : t = t' := ht
    obtain rfl : a = a' := a.view_all.symm.trans (ha.trans a'.view_all)
    exact h.declare _ _
  declareMember {s s' m m' place place'} h hm hplace := by
    obtain rfl : place = place' := hplace
    obtain rfl : m = m' := m.view_all.symm.trans (hm.trans m'.view_all)
    exact h.declare _ _
  declareItem {s s' i i'} h hi := by
    obtain rfl : i = i' := i.view_all.symm.trans (hi.trans i'.view_all)
    exact h.declare _ _

theorem items_eq_of_view_all {items items' : List Item} (h : View.all.Alike .all items items') :
    items = items' := by
  have hview : Item.view .all = id := funext Item.view_all
  have h : items.map (Item.view .all) = items'.map (Item.view .all) := h
  simpa [hview] using h

section Ends

variable {ts : List Token} {z : Token} (hts : Endless ts) (hz : z.kind = .eof)
include hts hz

theorem parse_after_end (js : List Token) (file : String) (options : ParseOptions) :
    (∃ c s s', parse (ts ++ z :: js) file options = .ok c s ∧
      parse (ts ++ [z]) file options = .ok c s' ∧ s.toNames = s'.toNames) ∨
    (∃ x s s', parse (ts ++ z :: js) file options = .error x s ∧
      parse (ts ++ [z]) file options = .error x s' ∧ s.toNames = s'.toNames) := by
  have he : IsEnd (z :: js) := fun t ht => Option.some.inj ht ▸ hz
  have he' : IsEnd [z] := fun t ht => Option.some.inj ht ▸ hz
  have hstart : (Lockstep.ends options he he').states (.initial (ts ++ z :: js) file)
    (.initial (ts ++ [z]) file) := ⟨rfl, rfl, rfl, [], ts, 0, file, hts, rfl, rfl⟩
  rcases (Lockstep.ends options he he').parse_alike hstart with
    ⟨items, items', s, s', h, h', hitems, hs⟩ | ⟨x, x', s, s', h, h', hx, hs⟩
  · obtain rfl := items_eq_of_view_all hitems
    have hhead : s.cursor.ahead.head? = s'.cursor.ahead.head? :=
      (hs.cursors.head_eq_or he).resolve_right fun hend => hend.2.2.2 rfl
    rw [← (hs.cursors.unexpected_eq_of_head hhead).1] at h'
    exact .inl ⟨_, s, s', h, h', hs.names_eq⟩
  · obtain rfl : x = x' := hx.resolve_right fun hend => hend.2.2.1 rfl
    exact .inr ⟨x, s, s', h, h', hs.names_eq⟩

theorem parse_without_end (file : String) (options : ParseOptions) :
    (∃ c c' s s', parse ts file options = .ok c s ∧ parse (ts ++ [z]) file options = .ok c' s' ∧
      c.items = c'.items ∧ s.toNames = s'.toNames) ∨
    (∃ x x' s s', parse ts file options = .error x s ∧
      parse (ts ++ [z]) file options = .error x' s' ∧ s.toNames = s'.toNames ∧
      (x = x' ∨ s.cursor.ahead = [] ∧ s'.cursor.ahead = [z] ∧ x.Akin x')) := by
  have he : IsEnd ([] : List Token) := nofun
  have he' : IsEnd [z] := fun t ht => Option.some.inj ht ▸ hz
  have hstart : (Lockstep.ends options he he').states (.initial ts file)
      (.initial (ts ++ [z]) file) := by
    refine ⟨rfl, rfl, rfl, [], ts, 0, file, hts, ?_, rfl⟩
    rw [List.append_nil]
    rfl
  rcases (Lockstep.ends options he he').parse_alike hstart with
    ⟨items, items', s, s', h, h', hitems, hs⟩ | ⟨x, x', s, s', h, h', hx, hs⟩
  · exact .inl ⟨_, _, s, s', h, h', items_eq_of_view_all hitems, hs.names_eq⟩
  · exact .inr ⟨x, x', s, s', h, h', hs.names_eq,
      hx.imp_right fun ⟨hahead, hahead', _, hakin⟩ => ⟨hahead, hahead', hakin⟩⟩

/-- Whatever follows the first token that ends the input makes no difference; and without such a token
a file is read to the same items and names, or fails with the same error, unless it fails at the
end: there the error is one about the end of the input, or about levels of nesting, in both cases, but
may be at another place and expect something else. -/
theorem parse_end (js : List Token) (file : String) (options : ParseOptions) :
    ((∃ c s s', parse (ts ++ z :: js) file options = .ok c s ∧
        parse (ts ++ [z]) file options = .ok c s' ∧ s.toNames = s'.toNames) ∨
      (∃ x s s', parse (ts ++ z :: js) file options = .error x s ∧
        parse (ts ++ [z]) file options = .error x s' ∧ s.toNames = s'.toNames)) ∧
    ((∃ c c' s s', parse ts file options = .ok c s ∧ parse (ts ++ [z]) file options = .ok c' s' ∧
        c.items = c'.items ∧ s.toNames = s'.toNames) ∨
      (∃ x x' s s', parse ts file options = .error x s ∧
        parse (ts ++ [z]) file options = .error x' s' ∧ s.toNames = s'.toNames ∧
        (x = x' ∨ s.cursor.ahead = [] ∧ s'.cursor.ahead = [z] ∧ x.Akin x'))) :=
  ⟨parse_after_end hts hz js file options, parse_without_end hts hz file options⟩

end Ends

/-- Reading `struct S` without its semicolon fails: alone, before a token that ends the input, and if
the semicolon comes after that token. -/
theorem parse_end_missing_semicolon :
    let ts : List Token := [.fixed .kwStruct, ⟨.identifier, "S", .nowhere⟩]
    (∃ x s s', parse (ts ++ .fixed .eof :: [.fixed .semicolon]) "t" = .error x s ∧
      parse (ts ++ [.fixed .eof]) "t" = .error x s' ∧ s.toNames = s'.toNames) ∧
    (∃ x x' s s', parse ts "t" = .error x s ∧ parse (ts ++ [.fixed .eof]) "t" = .error x' s' ∧
      (x = x' ∨ s.cursor.ahead = [] ∧ s'.cursor.ahead = [.fixed .eof] ∧ x.Akin x')) := by
  intro ts
  have hts : Endless ts := by
    unfold Endless
    decide
  obtain ⟨hafter, hwithout⟩ := parse_end hts (z := .fixed .eof) rfl [.fixed .semicolon] "t" {}
  have hfail : succeeds (fun _ _ => true) (parse (ts ++ [.fixed .eof]) "t") = false := by
    decide +kernel
  constructor
  · rcases hafter with ⟨c, s, s', -, h', -⟩ | h
    · simp [h', succeeds] at hfail
    · exact h
  · rcases hwithout with ⟨c, c', s, s', -, h', -⟩ | ⟨x, x', s, s', h, h', -, hx⟩
    · simp [h', succeeds] at hfail
    · exact ⟨x, x', s, s', h, h', hx⟩

end FrontEnd
