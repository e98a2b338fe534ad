import FrontEnd.Proofs.EndOfInput
import FrontEnd.Proofs.Foresight
import FrontEnd.Proofs.Hindsight
import FrontEnd.Proofs.PatternResolution
/-!
# One file after another

Items are read one by one, and no item sees what stands after it or asks what was read before. So the
items of two lists of tokens put together are those of the first and then those of the second.
-/
namespace FrontEnd

open Phrase Grammar

variable {α : Type} {options : ParseOptions} {s t : ParseState}

theorem Cursor.kind_of_nil {c : Cursor} (h : c.ahead = []) : c.kind = .eof := by
  rw [kind, kindAhead, ahead?, h]
  rfl

namespace Phrase

variable {k : TokenKind} {p : Phrase α} {below : (g : Goal) → Reader g.Tree}

theorem run_repeated_of_some {round : Phrase (Option α)} {a : α}
    (h : round.run options below s = .ok (some a) t)
    (hlt : t.cursor.ahead.length < s.cursor.ahead.length) :
    (repeated round).run options below s =
      (do return a :: (← repeated round)).run options below t := by
  rw [run_repeated, Reader.many_of_some h hlt, run_bind, run_repeated]
  rfl

theorem run_repeated_of_error {round : Phrase (Option α)} {e : SyntaxError}
    (h : round.run options below s = .error e t) :
    (repeated round).run options below s = .error e t := by
  rw [run_repeated, Reader.many, Reader.collect_of_error h]

/-- Nothing is read where the token that ends a list is the current one. -/
theorem read_untilKind_of_kind (h : s.cursor.kind = k) :
    (untilKind k p).read options s = .ok [] s := by
  unfold read untilKind
  rw [run_repeated, Reader.many, Reader.collect_of_none]
  rw [run_kind, if_pos h]
  rfl

/-- A list is an element and then a list where the token that ends it has not been reached. -/
theorem read_untilKind_of_ne (hp : p.Takes options) (h : s.cursor.kind ≠ k) :
    (untilKind k p).read options s =
      (do return (← p) :: (← untilKind k p)).read options s := by
  have hround : (do if (← kind) = k then return none else some <$> p).run options
      (Goal.read options options.maxDepth) s =
        (p >>= fun a => pure (some a)).run options (Goal.read options options.maxDepth) s := by
    rw [run_kind, if_neg h, map_eq_pure_bind]
  unfold read
  match hps : p.run options (Goal.read options options.maxDepth) s with
  | .error e t =>
    rw [run_bind_of_error hps] at hround ⊢
    exact run_repeated_of_error hround
  | .ok a t =>
    rw [run_bind_of_ok hps] at hround ⊢
    exact run_repeated_of_some hround (hp _ s a t hps)

end Phrase

namespace Grammar

abbrev allItems : Phrase (List Item) := untilKind .eof declaredItem

/-- Tokens that were read as items to the last one are read so before others too, which are read on
from there. -/
theorem read_allItems_append {items : List Item} (hs : Endless s.cursor.ahead)
    (h : allItems.read options s = .ok items t) (rest : List Token) :
    allItems.read options (s.withAhead (s.cursor.ahead ++ rest)) =
      ((items ++ ·) <$> allItems).read options (t.withAhead rest) := by
  induction hn : s.cursor.ahead.length using Nat.strongRecOn generalizing s items with
  | ind n ih =>
    match hts : s.cursor.ahead with
    | [] =>
      rw [read_untilKind_of_kind (Cursor.kind_of_nil hts)] at h
      cases h
      exact congrArg (fun p : Phrase (List Item) => p.read options (t.withAhead rest))
        (id_map allItems).symm
    | u :: us =>
      have hk {ts : List Token} : (s.withAhead (u :: us ++ ts)).cursor.kind ≠ .eof :=
        hs u (hts ▸ List.mem_cons_self)
      have hself : s.withAhead (u :: us ++ []) = s := by
        rw [List.append_nil, ← hts]
        rfl
      rw [read_untilKind_of_ne takes_declaredItem (hself ▸ hk), Phrase.read, run_bind] at h
      obtain ⟨i, s', hi, h⟩ := Reader.ok_of_bind h
      rw [run_bind] at h
      obtain ⟨is, t', his, hdone⟩ := Reader.ok_of_bind h
      cases hdone
      obtain ⟨w, hw, hsame⟩ := read_declaredItem_withAhead hi
      have hlt := takes_declaredItem _ s i s' hi
      have hs' : Endless s'.cursor.ahead := fun x hx => hs x (hw ▸ List.mem_append_right w hx)
      have hi' : declaredItem.read options (s.withAhead (u :: us ++ rest)) =
          .ok i (s'.withAhead (s'.cursor.ahead ++ rest)) := by
        rw [← hts, hw, List.append_assoc]
        exact hsame _
      rw [read_untilKind_of_ne takes_declaredItem hk, Phrase.read, run_bind_of_ok hi', run_bind]
      have hrest := ih _ (hn ▸ hlt) hs' his rfl
      refine (Reader.bind_congr hrest fun _ _ _ => rfl).trans ?_
      rw [Phrase.read, ← run_bind, bind_map_left, map_eq_pure_bind]
      rfl

/-- What was read before does not matter to the items of a file. -/
theorem read_allItems_sameAhead {s' : ParseState} (hnames : options.resolvePatterns = false)
    (h : s.SameAhead s') :
    (∃ items t t', allItems.read options s = .ok items t ∧ allItems.read options s' = .ok items t') ∨
    (∃ e t t', allItems.read options s = .error e t ∧ allItems.read options s' = .error e t') := by
  by_cases hk : s.cursor.kind = .eof
  · have hk' : s'.cursor.kind = .eof := (h.kindAhead_eq 0).symm.trans hk
    exact .inl ⟨[], s, s', read_untilKind_of_kind hk, read_untilKind_of_kind hk'⟩
  · have hk' : s'.cursor.kind ≠ .eof := fun hk' => hk ((h.kindAhead_eq 0).trans hk')
    have hahead : s.cursor.ahead ≠ [] := fun hnil => hk (Cursor.kind_of_nil hnil)
    have hsame := takesFirst_declaredItem.bind (f := fun i => do return i :: (← allItems))
      |>.read hnames h hahead
    rw [read_untilKind_of_ne takes_declaredItem hk, read_untilKind_of_ne takes_declaredItem hk']
    match hr : (do return (← declaredItem) :: (← allItems)).read options s,
      hr' : (do return (← declaredItem) :: (← allItems)).read options s' with
    | .ok items t, .ok items' t' =>
      rw [hr, hr'] at hsame
      obtain ⟨rfl, -⟩ := hsame
      exact .inl ⟨items, t, t', rfl, rfl⟩
    | .error e t, .error e' t' =>
      rw [hr, hr'] at hsame
      obtain rfl : e = e' := hsame
      exact .inr ⟨e, t, t', rfl, rfl⟩
    | .ok items t, .error e t' | .error e t, .ok items t' =>
      rw [hr, hr'] at hsame
      exact hsame.elim

/-- After all items of a file the next one is read as if it stood alone. -/
theorem sameAhead_initial {ts rest : List Token} {file : String} {items : List Item}
    (h : allItems.read options (.initial ts file) = .ok items t) :
    (t.withAhead rest).SameAhead (.initial rest file) := by
  have hkept := (read_kept allItems options).of_ok h
  have hpasses := (run_passes allItems options _).of_ok h
  exact ⟨rfl, hpasses.beyond_eq, hkept.depth_eq, hkept.structLiterals_eq⟩

end Grammar

section Files

variable {ts₁ : List Token} {file : String} {limit : Nat} {c : Crate}

/-- A file that is read is its items and the place where it ends. -/
theorem items_of_parse (h : parse ts₁ file options = .ok c s) :
    allItems.read options (.initial ts₁ file) = .ok c.items s := by
  match hr : allItems.read options (.initial ts₁ file) with
  | .ok items t =>
    cases (parse_of_ok hr).symm.trans h
    rfl
  | .error e t => cases (parse_of_error hr).symm.trans h

/-- Two files with items that differ only in patterns that are names. -/
def Crate.SameItems (c c' : Crate) : Prop :=
  c.items.map (Item.view .binding) = c'.items.map (Item.view .binding)

/-- Whether names are looked up changes neither what is accepted nor an error, and the items only in
their patterns. -/
theorem parse_names (ts : List Token) (file : String) (limit : Nat) (resolve : Bool) :
    (∃ c c' s s', parse ts file ⟨limit, resolve⟩ = .ok c s ∧ parse ts file ⟨limit, false⟩ = .ok c' s' ∧
      c.SameItems c' ∧ (resolve = false → c = c')) ∨
    (∃ e s s', parse ts file ⟨limit, resolve⟩ = .error e s ∧
      parse ts file ⟨limit, false⟩ = .error e s') := by
  cases resolve with
  | true =>
    have hstart : (Lockstep.resolution limit).states (.initial ts file) (.initial ts file) :=
      ⟨rfl, rfl, rfl⟩
    rcases (Lockstep.resolution limit).parse_alike hstart with
      ⟨items, items', t, t', h, h', hitems, -⟩ | ⟨e, e', t, t', h, h', rfl, -⟩
    · exact .inl ⟨_, _, t, t', h, h', hitems, nofun⟩
    · exact .inr ⟨e, t, t', h, h'⟩
  | false =>
    cases h : parse ts file ⟨limit, false⟩ with
    | ok c s => exact .inl ⟨c, c, s, s, rfl, rfl, rfl, fun _ => rfl⟩
    | error e s => exact .inr ⟨e, s, s, rfl, rfl⟩

variable {resolve : Bool} {e : SyntaxError}

theorem parse_bound_of_ok (h : parse ts₁ file ⟨limit, resolve⟩ = .ok c s) :
    ∃ c' s', parse ts₁ file ⟨limit, false⟩ = .ok c' s' ∧ c.SameItems c' ∧
      (resolve = false → c = c') := by
  rcases parse_names ts₁ file limit resolve with ⟨d, c', t, s', hd, h', hsame⟩ | ⟨e, t, s', he, -⟩
  · cases h.symm.trans hd
    exact ⟨c', s', h', hsame⟩
  · cases h.symm.trans he

theorem parse_of_bound_ok (h : parse ts₁ file ⟨limit, false⟩ = .ok c s) :
    ∃ c' s', parse ts₁ file ⟨limit, resolve⟩ = .ok c' s' ∧ c'.SameItems c ∧
      (resolve = false → c' = c) := by
  rcases parse_names ts₁ file limit resolve with ⟨c', d, s', t, h', hd, hsame⟩ | ⟨e, s', t, -, he⟩
  · cases h.symm.trans hd
    exact ⟨c', s', h', hsame⟩
  · cases h.symm.trans he

theorem parse_of_bound_error (h : parse ts₁ file ⟨limit, false⟩ = .error e s) :
    ∃ s', parse ts₁ file ⟨limit, resolve⟩ = .error e s' := by
  rcases parse_names ts₁ file limit resolve with ⟨c', d, s', t, -, hd, -⟩ | ⟨e', s', t, h', he⟩
  · cases h.symm.trans hd
  · cases h.symm.trans he
    exact ⟨s', h'⟩

/-- Where names are not looked up, the items of two files are those of the first and then those of
the second, and an error of the second is one of both. -/
theorem parse_append_of_ok (hts : Endless ts₁) (h : parse ts₁ file ⟨limit, false⟩ = .ok c s)
    (ts₂ : List Token) :
    (∃ c' c₂ t t₂, parse (ts₁ ++ ts₂) file ⟨limit, false⟩ = .ok c' t ∧
      parse ts₂ file ⟨limit, false⟩ = .ok c₂ t₂ ∧ c'.items = c.items ++ c₂.items) ∨
    (∃ e t t₂, parse (ts₁ ++ ts₂) file ⟨limit, false⟩ = .error e t ∧
      parse ts₂ file ⟨limit, false⟩ = .error e t₂) := by
  have hitems := items_of_parse h
  have happend : allItems.read ⟨limit, false⟩ (.initial (ts₁ ++ ts₂) file) =
      ((c.items ++ ·) <$> allItems).read ⟨limit, false⟩ (s.withAhead ts₂) :=
    read_allItems_append hts hitems ts₂
  rw [map_eq_pure_bind, Phrase.read] at happend
  have hnames : (⟨limit, false⟩ : ParseOptions).resolvePatterns = false := rfl
  rcases read_allItems_sameAhead hnames (sameAhead_initial hitems) with
    ⟨items, t, t₂, hrest, hsecond⟩ | ⟨e, t, t₂, hrest, hsecond⟩
  · exact .inl ⟨_, _, t, t₂, parse_of_ok (happend.trans (run_bind_of_ok hrest)), parse_of_ok hsecond,
      rfl⟩
  · exact .inr ⟨e, t, t₂, parse_of_error (happend.trans (run_bind_of_error hrest)),
      parse_of_error hsecond⟩

end Files

/-- Reading is compositional over items: an item that was read would have been read whatever stands
after its last token; and where the tokens of one file, none of which ends the input, are read, then
these and the tokens of a second file together are either read too, as is the second file alone, to
the items of both, or refused with the same error as the second file alone. Patterns that are names
may mean constants of the first file in the second, if names are looked up. -/
theorem parse_append :
    (∀ options s i t, item.read options s = .ok i t → ∃ w, s.cursor.ahead = w ++ t.cursor.ahead ∧
      ∀ rest, item.read options (s.withAhead (w ++ rest)) = .ok i (t.withAhead rest)) ∧
    ∀ ts₁ ts₂ file limit resolve c₁ s₁, Endless ts₁ →
      parse ts₁ file ⟨limit, resolve⟩ = .ok c₁ s₁ →
      (∃ c c₂ s s₂, parse (ts₁ ++ ts₂) file ⟨limit, resolve⟩ = .ok c s ∧
        parse ts₂ file ⟨limit, resolve⟩ = .ok c₂ s₂ ∧
        c.items.map (Item.view .binding) = (c₁.items ++ c₂.items).map (Item.view .binding) ∧
        (resolve = false → c.items = c₁.items ++ c₂.items)) ∨
      (∃ e s s₂, parse (ts₁ ++ ts₂) file ⟨limit, resolve⟩ = .error e s ∧
        parse ts₂ file ⟨limit, resolve⟩ = .error e s₂) := by
  refine ⟨fun _ _ _ _ h => read_item_withAhead h, ?_⟩
  intro ts₁ ts₂ file limit resolve c₁ s₁ hts h
  obtain ⟨d₁, t₁, h₁, hsame₁, heq₁⟩ := parse_bound_of_ok h
  rcases parse_append_of_ok hts h₁ ts₂ with
    ⟨d, d₂, t, t₂, hboth, hsecond, hitems⟩ | ⟨e, t, t₂, hboth, hsecond⟩
  · obtain ⟨c, s, hc, hsame, heq⟩ := parse_of_bound_ok hboth
    obtain ⟨c₂, s₂, hc₂, hsame₂, heq₂⟩ := parse_of_bound_ok hsecond
    refine .inl ⟨c, c₂, s, s₂, hc, hc₂, ?_, fun hr => ?_⟩
    · rw [hsame, hitems, List.map_append, List.map_append, hsame₁, hsame₂]
    · rw [heq hr, heq₁ hr, heq₂ hr, hitems]
  · obtain ⟨s, hs⟩ := parse_of_bound_error hboth
    obtain ⟨s₂, hs₂⟩ := parse_of_bound_error hsecond
    exact .inr ⟨e, s, s₂, hs, hs₂⟩

/-- The items of `struct S;` and `struct T;` after each other are those of the two. -/
theorem parse_append_structs :
    let item (name : String) : List Token :=
      [.fixed .kwStruct, ⟨.identifier, name, .nowhere⟩, .fixed .semicolon]
    ∃ c c₁ c₂ s s₁ s₂, parse (item "S") "t" ⟨0, false⟩ = .ok c₁ s₁ ∧
      parse (item "T") "t" ⟨0, false⟩ = .ok c₂ s₂ ∧
      parse (item "S" ++ item "T") "t" ⟨0, false⟩ = .ok c s ∧ c.items = c₁.items ++ c₂.items := by
  intro item
  have hts : Endless (item "S") := by
    unfold Endless
    decide
  obtain ⟨c₁, s₁, h₁, -⟩ := exists_ok_of_succeeds (P := fun _ _ => true)
    (r := parse (item "S") "t" ⟨0, false⟩) (by decide +kernel)
  obtain ⟨d₂, t₂, h₂, -⟩ := exists_ok_of_succeeds (P := fun _ _ => true)
    (r := parse (item "T") "t" ⟨0, false⟩) (by decide +kernel)
  rcases parse_append.2 _ (item "T") _ _ _ _ _ hts h₁ with
    ⟨c, c₂, s, s₂, h, h₂', -, heq⟩ | ⟨e, s, s₂, -, he⟩
  · exact ⟨c, c₁, c₂, s, s₁, s₂, h₁, h₂', h, heq rfl⟩
  · cases h₂.symm.trans he

end FrontEnd
