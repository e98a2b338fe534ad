import FrontEnd.Sexpr
import FrontEnd.Proofs.Candidate
/-!
# S-expressions are told apart by their text

The text of an s-expression has blanks and parentheses of its own only around its items. A word may
hold some as well, but only between quotes. So where a word ends is seen from the text, and two
s-expressions with the same text are the same.
-/
namespace FrontEnd

open Lexeme (Quotation StringBody Candidate)

/-- A character that is no blank, no parenthesis and no quote. -/
def isPlain (c : Char) : Bool := c ∉ [' ', '(', ')', '"', '\x27']

/-- Text that can stand as a word in an s-expression: plain characters, or a literal between quotes. -/
inductive IsWord : List Char → Prop
  | plain {cs : List Char} : cs ≠ [] → (∀ c ∈ cs, isPlain c = true) → IsWord cs
  | char {cs : List Char} : Quotation cs → IsWord cs
  | string {body : List Char} : StringBody body → IsWord ('"' :: body ++ ['"'])

/-- What may follow an item: a blank, a closing parenthesis, or nothing. -/
def Closes (rest : List Char) : Prop := ∀ c ∈ rest.head?, c = ' ' ∨ c = ')'

/-- The number of characters of the word at the front of a text. -/
def wordEnd : List Char → Nat
  | '"' :: cs => Lexeme.string.length ('"' :: cs)
  | '\x27' :: cs => Lexeme.char.length ('\x27' :: cs)
  | cs => runLength isPlain cs

variable {cs cs' rest rest' : List Char}

theorem Closes.ends (h : Closes rest) : Ends isPlain rest := by
  intro c hc
  rcases h c hc with rfl | rfl <;> rfl

namespace IsWord

theorem exists_cons (h : IsWord cs) : ∃ c ds, cs = c :: ds ∧ c ∉ [' ', '(', ')'] := by
  cases h with
  | plain hne hplain =>
    obtain ⟨c, ds, rfl⟩ := List.exists_cons_of_ne_nil hne
    have hc := hplain c List.mem_cons_self
    refine ⟨c, ds, rfl, fun hmem => ?_⟩
    simp only [List.mem_cons, List.not_mem_nil, or_false] at hmem
    rcases hmem with rfl | rfl | rfl <;> cases hc
  | char h =>
    rcases h with ⟨c, rfl, -⟩ | ⟨c, rfl, -⟩ | ⟨a, b, rfl, -⟩ <;> exact ⟨_, _, rfl, by decide⟩
  | string h => exact ⟨_, _, rfl, by decide⟩

theorem wordEnd_eq (h : IsWord cs) (hrest : Closes rest) : wordEnd (cs ++ rest) = cs.length := by
  cases h with
  | plain hne hplain =>
    have hrun : runLength isPlain (cs ++ rest) = cs.length :=
      runLength_eq_iff.mpr ⟨hplain, hrest.ends⟩
    obtain ⟨c, ds, rfl⟩ := List.exists_cons_of_ne_nil hne
    have hc := hplain c List.mem_cons_self
    rw [← hrun, List.cons_append, wordEnd]
    · rintro _ ⟨⟩
      cases hc
    · rintro _ ⟨⟩
      cases hc
  | char h =>
    have hlength := Candidate.length_eq (show Candidate .char cs rest from h)
    rcases h with ⟨c, rfl, -⟩ | ⟨c, rfl, -⟩ | ⟨a, b, rfl, -⟩ <;> exact hlength
  | @string body h =>
    exact Candidate.length_eq (show Candidate .string ('"' :: body ++ ['"']) rest from ⟨body, rfl, h⟩)

/-- Where a word ends is seen from the text. -/
theorem append_inj (h : IsWord cs) (h' : IsWord cs') (hrest : Closes rest) (hrest' : Closes rest')
    (heq : cs ++ rest = cs' ++ rest') : cs = cs' ∧ rest = rest' := by
  refine List.append_inj heq ?_
  rw [← h.wordEnd_eq hrest, heq, h'.wordEnd_eq hrest']

end IsWord

namespace Sexpr

inductive Readable : Sexpr → Prop
  | atom {text : String} : IsWord text.toList → Readable (.atom text)
  | list {items : List Sexpr} : (∀ s ∈ items, s.Readable) → Readable (.list items)

def chars (s : Sexpr) : List Char := s.render.toList

def tailChars (items : List Sexpr) : List Char := items.flatMap fun s => ' ' :: s.chars

def itemChars : List Sexpr → List Char
  | [] => []
  | s :: items => s.chars ++ tailChars items

@[simp] theorem tailChars_nil : tailChars [] = [] := rfl

@[simp] theorem tailChars_cons (s : Sexpr) (items : List Sexpr) :
    tailChars (s :: items) = ' ' :: (s.chars ++ tailChars items) := by
  simp [tailChars]

theorem itemChars_cons (s : Sexpr) (items : List Sexpr) :
    itemChars (s :: items) = s.chars ++ tailChars items := rfl

@[simp] theorem chars_atom (text : String) : (atom text).chars = text.toList := rfl

theorem intercalate_blank (items : List Sexpr) :
    [' '].intercalate (items.map chars) = itemChars items := by
  induction items with
  | nil => rfl
  | cons s items ih =>
    cases items with
    | nil => simp [itemChars]
    | cons t items => 
      rw [List.map_cons, List.map_cons, List.intercalate_cons_cons, ← List.map_cons, ih]
      simp [itemChars]

@[simp] theorem chars_list (items : List Sexpr) :
    (list items).chars = '(' :: (itemChars items ++ [')']) := by
  have hrender : (renderEach items).map String.toList = items.map chars := by
    rw [renderEach_eq_map, List.map_map]
    rfl
  rw [← intercalate_blank, chars, render]
  simp [hrender]

theorem Readable.exists_cons {s : Sexpr} (h : s.Readable) :
    ∃ c ds, s.chars = c :: ds ∧ c ≠ ')' := by
  cases h with
  | atom htext =>
    obtain ⟨c, ds, heq, hc⟩ := htext.exists_cons
    refine ⟨c, ds, heq, ?_⟩
    rintro rfl
    exact hc (by decide)
  | list _ => exact ⟨_, _, chars_list _, by decide⟩

/-- An s-expression is seen from the text that it begins. -/
def Seen (s : Sexpr) : Prop :=
  ∀ s' rest rest', s'.Readable → Closes rest → Closes rest' →
    s.chars ++ rest = s'.chars ++ rest' → s = s' ∧ rest = rest'

variable {items items' : List Sexpr}

theorem closes_tailChars (items : List Sexpr) (rest : List Char) :
    Closes (tailChars items ++ ')' :: rest) := by
  cases items <;> simp [Closes]

theorem tailChars_inj (h : ∀ s ∈ items, s.Seen) (h' : ∀ s ∈ items', s.Readable)
    (heq : tailChars items ++ ')' :: rest = tailChars items' ++ ')' :: rest') :
    items = items' ∧ rest = rest' := by
  induction items generalizing items' with
  | nil =>
    cases items' with
    | nil => exact ⟨rfl, (List.cons.inj heq).2⟩
    | cons s' items' => cases heq
  | cons s items ih =>
    cases items' with
    | nil => cases heq
    | cons s' items' =>
      obtain ⟨hs, hitems⟩ := List.forall_mem_cons.mp h
      obtain ⟨hs', hitems'⟩ := List.forall_mem_cons.mp h'
      simp only [tailChars_cons, List.cons_append, List.append_assoc, List.cons.injEq,
        true_and] at heq
      obtain ⟨rfl, hmore⟩ := hs s' _ _ hs' (closes_tailChars _ _) (closes_tailChars _ _) heq
      obtain ⟨rfl, hrest⟩ := ih hitems hitems' hmore
      exact ⟨rfl, hrest⟩

theorem Readable.chars_append_ne {s : Sexpr} (h : s.Readable) : s.chars ++ cs ≠ ')' :: rest := by
  obtain ⟨c, ds, hchars, hc⟩ := h.exists_cons
  rw [hchars]
  exact fun heq => hc (List.cons.inj heq).1

theorem itemChars_inj (h : ∀ s ∈ items, s.Readable) (hseen : ∀ s ∈ items, s.Seen)
    (h' : ∀ s ∈ items', s.Readable)
    (heq : itemChars items ++ ')' :: rest = itemChars items' ++ ')' :: rest') :
    items = items' ∧ rest = rest' := by
  refine tailChars_inj hseen h' ?_
  cases items with
  | nil =>
    cases items' with
    | nil => exact heq
    | cons s' items' =>
      rw [itemChars_cons, List.append_assoc] at heq
      exact absurd heq.symm (h' s' List.mem_cons_self).chars_append_ne
  | cons s items =>
    cases items' with
    | nil =>
      rw [itemChars_cons, List.append_assoc] at heq
      exact absurd heq (h s List.mem_cons_self).chars_append_ne
    | cons s' items' =>
      rw [tailChars_cons, tailChars_cons, List.cons_append, List.cons_append]
      exact congrArg (' ' :: ·) heq

/-- Every s-expression is seen from the text that it begins. -/
theorem Readable.seen {s : Sexpr} (h : s.Readable) : s.Seen := by
  induction h with
  | @atom text htext =>
    intro s' rest rest' hs' hrest hrest' heq
    cases hs' with
    | @atom text' htext' =>
      obtain ⟨hchars, rfl⟩ := htext.append_inj htext' hrest hrest' heq
      rw [String.toList_inj.mp hchars]
      exact ⟨rfl, rfl⟩
    | list _ =>
      obtain ⟨c, ds, hchars, hc⟩ := htext.exists_cons
      rw [chars_atom, chars_list, hchars] at heq
      rw [(List.cons.inj heq).1] at hc
      exact absurd (by decide) hc
  | @list items hitems ih =>
    intro s' rest rest' hs' hrest hrest' heq
    cases hs' with
    | @atom text' htext' =>
      obtain ⟨c, ds, hchars, hc⟩ := htext'.exists_cons
      rw [chars_atom, chars_list, hchars] at heq
      rw [← (List.cons.inj heq).1] at hc
      exact absurd (by decide) hc
    | list hitems' =>
      simp only [chars_list, List.cons_append, List.append_assoc, List.nil_append, List.cons.injEq,
        true_and] at heq
      obtain ⟨rfl, rfl⟩ := itemChars_inj hitems ih hitems' heq
      exact ⟨rfl, rfl⟩

/-- Two s-expressions with the same text are the same. -/
theorem Readable.render_inj {s s' : Sexpr} (h : s.Readable) (h' : s'.Readable) :
    s.render = s'.render ↔ s = s' := by
  constructor
  · intro heq
    have hchars : s.chars ++ [] = s'.chars ++ [] := by rw [chars, chars, heq]
    exact (h.seen s' [] [] h' nofun nofun hchars).1
  · rintro rfl
    rfl

end Sexpr

end FrontEnd
