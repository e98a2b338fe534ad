import FrontEnd.Proofs.Decoding
import FrontEnd.Proofs.Scanning
import Mathlib.Data.List.Forall2
import Mathlib.Data.Nat.Digits.Defs
/-!
# The values of integers

The decoder reads digits from the left and stops at the first that is none or that takes the value to
the bound. So the value is the positional one wherever there is one below the bound, and what is
blamed is whatever comes first. However a number below the bound is written, the scanner takes the
whole of it, and it is read back.
-/
namespace FrontEnd

open Lexeme (Digits TypeSuffix basePart? isDecimalPart isHexPart)

namespace Literal

/-- The letters that name a base after a zero. -/
def bases : List (Char × Nat) := [('b', 2), ('o', 8), ('x', 16)]

/-- The text is cut before a type suffix at its end, if it has one. -/
def CutsSuffix (cs ds : List Char) : Prop :=
  (∃ s ∈ integerSuffixes, cs = ds ++ s.toList) ∨ ds = cs ∧ ∀ s ∈ integerSuffixes, ¬s.toList <:+ cs

/-- The text is digits of a base that its first two characters name, else of base ten. -/
inductive CutsBase : (cs : List Char) → (radix : Nat) → (ds : List Char) → Prop
  | based {letter : Char} {radix : Nat} {ds : List Char} : (letter, radix) ∈ bases →
    CutsBase ('0' :: letter :: ds) radix ds
  | decimal {cs : List Char} :
    (∀ letter ds, cs = '0' :: letter :: ds → ∀ radix, (letter, radix) ∉ bases) → CutsBase cs 10 cs

/-- The base of an integer and its digits, without underscores. -/
def IntegerParts (raw : String) (radix : Nat) (digits : List Char) : Prop :=
  ∃ cs ds, CutsSuffix raw.toList cs ∧ CutsBase cs radix ds ∧ digits = ds.filter (· ≠ '_')

/-- The value of digits by their positions, the last one counting least. -/
def PositionalValue (radix : Nat) (cs : List Char) (v : Nat) : Prop :=
  ∃ ds, List.Forall₂ (IsDigit radix) cs ds ∧ v = Nat.ofDigits radix ds.reverse

variable {cs ds before after : List Char} {radix v : Nat} {raw : String}

/-- Only one type suffix can stand at the end of a text. -/
theorem CutsSuffix.unique {ds' : List Char} (h : CutsSuffix cs ds) (h' : CutsSuffix cs ds') :
    ds = ds' := by
  rcases h with ⟨s, hs, hcs⟩ | ⟨rfl, hno⟩
  · rcases h' with ⟨s', hs', hcs'⟩ | ⟨rfl, hno'⟩
    · have hback : s.toList <:+ cs := ⟨ds, hcs.symm⟩
      have hback' : s'.toList <:+ cs := ⟨ds', hcs'.symm⟩
      have heq : s = s' := by
        rcases List.suffix_or_suffix_of_suffix hback hback' with hsuffix | hsuffix
        · exact integerSuffixes_suffix s hs s' hs' hsuffix
        · exact (integerSuffixes_suffix s' hs' s hs hsuffix).symm
      rw [hcs, heq] at hcs'
      exact List.append_cancel_right hcs'
    · exact absurd ⟨ds, hcs.symm⟩ (hno' s hs)
  · rcases h' with ⟨s', hs', hcs'⟩ | ⟨rfl, -⟩
    · exact absurd ⟨ds', hcs'.symm⟩ (hno s' hs')
    · rfl

theorem cutsSuffix_withoutSuffix (cs : List Char) : CutsSuffix cs (withoutSuffix cs) := by
  unfold withoutSuffix
  cases h : integerSuffixes.findSome? fun s => beforeBack? s.toList cs with
  | none =>
    rw [List.findSome?_eq_none_iff] at h
    refine .inr ⟨rfl, ?_⟩
    rintro s hs ⟨ds, hds⟩
    have hsome : beforeBack? s.toList cs = some ds := beforeBack?_eq_some_iff.mpr hds.symm
    cases hsome.symm.trans (h s hs)
  | some ds =>
    obtain ⟨s, hs, hds⟩ := List.exists_of_findSome?_eq_some h
    exact .inl ⟨s, hs, beforeBack?_eq_some_iff.mp hds⟩

theorem CutsBase.unique {radix' : Nat} {ds' : List Char} (h : CutsBase cs radix ds)
    (h' : CutsBase cs radix' ds') : radix = radix' ∧ ds = ds' := by
  have hbases : ∀ p ∈ bases, ∀ q ∈ bases, p.1 = q.1 → p.2 = q.2 := by decide
  cases h with
  | based hletter =>
    cases h' with
    | based hletter' => exact ⟨hbases _ hletter _ hletter' rfl, rfl⟩
    | decimal hno => exact absurd hletter (hno _ _ rfl _)
  | decimal hno =>
    cases h' with
    | based hletter' => exact absurd hletter' (hno _ _ rfl _)
    | decimal => exact ⟨rfl, rfl⟩

theorem cutsBase_radixAndDigits (cs : List Char) :
    CutsBase cs (radixAndDigits cs).1 (radixAndDigits cs).2 := by
  have hbin : ('b', 2) ∈ bases := by decide
  have hoct : ('o', 8) ∈ bases := by decide
  have hhex : ('x', 16) ∈ bases := by decide
  unfold radixAndDigits
  split
  · exact .based hbin
  · exact .based hoct
  · exact .based hhex
  · next hb ho hx =>
    apply CutsBase.decimal
    rintro letter ds rfl radix hletter
    simp only [bases, List.mem_cons, Prod.mk.injEq, List.not_mem_nil, or_false] at hletter
    rcases hletter with ⟨rfl, -⟩ | ⟨rfl, -⟩ | ⟨rfl, -⟩
    · exact hb ds rfl
    · exact ho ds rfl
    · exact hx ds rfl

theorem CutsBase.radix_le (h : CutsBase cs radix ds) : 2 ≤ radix ∧ radix ≤ 16 := by
  have hbases : ∀ p ∈ bases, 2 ≤ p.2 ∧ p.2 ≤ 16 := by decide
  cases h with
  | based hletter => exact hbases _ hletter
  | decimal => decide

theorem exists_integerParts (raw : String) : ∃ radix digits, IntegerParts raw radix digits :=
  ⟨_, _, _, _, cutsSuffix_withoutSuffix _, cutsBase_radixAndDigits _, rfl⟩

/-- The decoder cuts an integer into its parts and reads the digits. -/
theorem IntegerParts.decodeInteger_eq {digits : List Char} (h : IntegerParts raw radix digits) :
    decodeInteger raw =
      if digits = [] then .error (.malformedLiteral raw) else readDigits raw radix 0 digits := by
  obtain ⟨cs, ds, hsuffix, hbase, hdigits⟩ := h
  have hcs : withoutSuffix raw.toList = cs := (cutsSuffix_withoutSuffix _).unique hsuffix
  obtain ⟨hradix, hds⟩ := (cutsBase_radixAndDigits cs).unique hbase
  simp only [decodeInteger, hcs, hradix, hds, ← hdigits]
  cases digits with
  | nil => rfl
  | cons c digits => rfl

/-- The value of digits read from the left onto another value. -/
def valueOnto (radix : Nat) : (v : Nat) → (ds : List Nat) → Nat :=
  List.foldl fun v d => v * radix + d

theorem valueOnto_zero (radix : Nat) (ds : List Nat) :
    valueOnto radix 0 ds = Nat.ofDigits radix ds.reverse := by
  rw [Nat.ofDigits_eq_foldr, List.foldr_reverse, valueOnto]
  congr 1
  funext v d
  simp only [Nat.cast_id]
  ring

/-- More digits do not make a value smaller. -/
theorem le_valueOnto (hradix : 1 ≤ radix) (v : Nat) (ds : List Nat) : v ≤ valueOnto radix v ds := by
  induction ds generalizing v with
  | nil => exact Nat.le_refl v
  | cons d ds ih =>
    have hstep : v ≤ v * radix + d := Nat.le_add_right_of_le (Nat.le_mul_of_pos_right v hradix)
    exact Nat.le_trans hstep (ih _)

/-- Digits whose value is below the bound are read, and reading goes on behind them. -/
theorem readDigits_append (hradix : 1 ≤ radix ∧ radix ≤ 16) {digits : List Nat}
    (h : List.Forall₂ (IsDigit radix) before digits)
    (hfits : valueOnto radix v digits < integerBound) :
    readDigits raw radix v (before ++ after) =
      readDigits raw radix (valueOnto radix v digits) after := by
  induction h generalizing v with
  | nil => rfl
  | @cons c d before digits hc _ ih =>
    have hfits' : v * radix + d < integerBound :=
      Nat.lt_of_le_of_lt (le_valueOnto hradix.1 _ digits) hfits
    rw [List.cons_append, readDigits, (digitOf_eq_some_iff hradix.2).mpr hc]
    simp only [hfits', if_true]
    exact ih hfits

/-- Digits whose value reaches the bound are too many, whatever follows them. -/
theorem readDigits_overflow (hradix : 1 ≤ radix ∧ radix ≤ 16) {digits : List Nat}
    (h : List.Forall₂ (IsDigit radix) before digits) (hv : v < integerBound)
    (hover : integerBound ≤ valueOnto radix v digits) :
    readDigits raw radix v (before ++ after) = .error (.integerOverflow raw) := by
  induction h generalizing v with
  | nil => exact absurd hv (Nat.not_lt.mpr hover)
  | @cons c d before digits hc _ ih =>
    rw [List.cons_append, readDigits, (digitOf_eq_some_iff hradix.2).mpr hc]
    by_cases hfits : v * radix + d < integerBound
    · simp only [hfits, if_true]
      exact ih hfits hover
    · simp only [hfits, if_false]

/-- A character that is no digit is blamed, whatever follows it. -/
theorem readDigits_invalid (hradix : radix ≤ 16) {c : Char} (h : ∀ d, ¬IsDigit radix c d) :
    readDigits raw radix v (c :: after) = .error (.invalidDigit c radix) := by
  rw [readDigits, (digitOf_eq_none_iff hradix).mpr h]

/-- From the left, all characters are digits and their value is below the bound, or there is a first
one that is none, or a first one with which the value is not. -/
theorem digits_cases (hradix : radix ≤ 16) (hv : v < integerBound) (cs : List Char) :
    (∃ digits, List.Forall₂ (IsDigit radix) cs digits ∧ valueOnto radix v digits < integerBound) ∨
    (∃ before c after digits, cs = before ++ c :: after ∧ List.Forall₂ (IsDigit radix) before digits ∧
      valueOnto radix v digits < integerBound ∧ ∀ d, ¬IsDigit radix c d) ∨
    ∃ before after digits, cs = before ++ after ∧ List.Forall₂ (IsDigit radix) before digits ∧
      integerBound ≤ valueOnto radix v digits := by
  induction cs generalizing v with
  | nil => exact .inl ⟨[], .nil, hv⟩
  | cons c cs ih =>
    cases hc : digitOf radix c with
    | none =>
      have hno := (digitOf_eq_none_iff hradix).mp hc
      exact .inr (.inl ⟨[], c, cs, [], rfl, .nil, hv, hno⟩)
    | some d =>
      have hd := (digitOf_eq_some_iff hradix).mp hc
      by_cases hfits : v * radix + d < integerBound
      · rcases ih hfits with ⟨digits, hall, hvalue⟩ |
          ⟨before, e, after, digits, rfl, hall, hvalue, hno⟩ |
          ⟨before, after, digits, rfl, hall, hvalue⟩
        · exact .inl ⟨d :: digits, .cons hd hall, hvalue⟩
        · exact .inr (.inl ⟨c :: before, e, after, d :: digits, rfl, .cons hd hall, hvalue, hno⟩)
        · exact .inr (.inr ⟨c :: before, after, d :: digits, rfl, .cons hd hall, hvalue⟩)
      · exact .inr (.inr ⟨[c], cs, [d], rfl, .cons hd .nil, Nat.le_of_not_lt hfits⟩)

section Parts

variable {digits : List Char} (h : IntegerParts raw radix digits)
include h

theorem IntegerParts.radix_le : 1 ≤ radix ∧ radix ≤ 16 := by
  obtain ⟨cs, ds, -, hbase, -⟩ := h
  have hradix := hbase.radix_le
  omega

theorem IntegerParts.decodeInteger_of_nil (hnil : digits = []) :
    decodeInteger raw = .error (.malformedLiteral raw) := by
  rw [h.decodeInteger_eq, if_pos hnil]

theorem IntegerParts.decodeInteger_of_value (hne : digits ≠ [])
    (hvalue : PositionalValue radix digits v) (hv : v < integerBound) :
    decodeInteger raw = .ok v := by
  obtain ⟨ds, hall, rfl⟩ := hvalue
  rw [← valueOnto_zero] at hv ⊢
  have hread : readDigits raw radix 0 (digits ++ []) = _ := readDigits_append h.radix_le hall hv
  rw [List.append_nil] at hread
  rw [h.decodeInteger_eq, if_neg hne, hread]
  rfl

theorem IntegerParts.decodeInteger_of_invalid {c : Char} (hdigits : digits = before ++ c :: after)
    (hvalue : PositionalValue radix before v) (hv : v < integerBound)
    (hno : ∀ d, ¬IsDigit radix c d) :
    decodeInteger raw = .error (.invalidDigit c radix) := by
  obtain ⟨ds, hall, rfl⟩ := hvalue
  rw [← valueOnto_zero] at hv
  have hne : digits ≠ [] := by simp [hdigits]
  rw [h.decodeInteger_eq, if_neg hne, hdigits, readDigits_append h.radix_le hall hv,
    readDigits_invalid h.radix_le.2 hno]

theorem IntegerParts.decodeInteger_of_overflow (hdigits : digits = before ++ after)
    (hvalue : PositionalValue radix before v) (hv : integerBound ≤ v) :
    decodeInteger raw = .error (.integerOverflow raw) := by
  obtain ⟨ds, hall, rfl⟩ := hvalue
  rw [← valueOnto_zero] at hv
  have hpos : 0 < integerBound := Nat.pow_pos Nat.two_pos
  have hne : digits ≠ [] := by
    rintro rfl
    obtain ⟨rfl, -⟩ := List.append_eq_nil_iff.mp hdigits.symm
    cases hall
    exact absurd hpos (Nat.not_lt.mpr hv)
  rw [h.decodeInteger_eq, if_neg hne, hdigits, readDigits_overflow h.radix_le hall hpos hv]

/-- The four ways that the digits of an integer can be. -/
theorem IntegerParts.cases : digits = [] ∨
    digits ≠ [] ∧ (∃ v, PositionalValue radix digits v ∧ v < integerBound) ∨
    (∃ before c after v, digits = before ++ c :: after ∧ PositionalValue radix before v ∧
      v < integerBound ∧ ∀ d, ¬IsDigit radix c d) ∨
    ∃ before after v, digits = before ++ after ∧ PositionalValue radix before v ∧
      integerBound ≤ v := by
  have hpos : 0 < integerBound := Nat.pow_pos Nat.two_pos
  by_cases hnil : digits = []
  · exact .inl hnil
  · rcases digits_cases h.radix_le.2 hpos digits with ⟨ds, hall, hvalue⟩ |
      ⟨before, c, after, ds, rfl, hall, hvalue, hno⟩ | ⟨before, after, ds, rfl, hall, hvalue⟩
    all_goals rw [valueOnto_zero] at hvalue
    · exact .inr (.inl ⟨hnil, _, ⟨ds, hall, rfl⟩, hvalue⟩)
    · exact .inr (.inr (.inl ⟨before, c, after, _, rfl, ⟨ds, hall, rfl⟩, hvalue, hno⟩))
    · exact .inr (.inr (.inr ⟨before, after, _, rfl, ⟨ds, hall, rfl⟩, hvalue⟩))

/-- The integers that have a value have digits, and the value is that of the digits. -/
theorem IntegerParts.decodeInteger_eq_ok_iff : decodeInteger raw = .ok v ↔
    digits ≠ [] ∧ PositionalValue radix digits v ∧ v < integerBound := by
  constructor
  · intro hok
    rcases h.cases with hnil | ⟨hne, w, hvalue, hw⟩ |
      ⟨before, c, after, w, hdigits, hvalue, hw, hno⟩ |
      ⟨before, after, w, hdigits, hvalue, hw⟩
    · rw [h.decodeInteger_of_nil hnil] at hok
      cases hok
    · rw [h.decodeInteger_of_value hne hvalue hw] at hok
      cases hok
      exact ⟨hne, hvalue, hw⟩
    · rw [h.decodeInteger_of_invalid hdigits hvalue hw hno] at hok
      cases hok
    · rw [h.decodeInteger_of_overflow hdigits hvalue hw] at hok
      cases hok
  · rintro ⟨hne, hvalue, hv⟩
    exact h.decodeInteger_of_value hne hvalue hv

/-- What is wrong with an integer is what comes first. -/
theorem IntegerParts.decodeInteger_eq_error_iff {e : DecodeError} : decodeInteger raw = .error e ↔
    digits = [] ∧ e = .malformedLiteral raw ∨
    (∃ before c after v, digits = before ++ c :: after ∧ PositionalValue radix before v ∧
      v < integerBound ∧ (∀ d, ¬IsDigit radix c d) ∧ e = .invalidDigit c radix) ∨
    ∃ before after v, digits = before ++ after ∧ PositionalValue radix before v ∧
      integerBound ≤ v ∧ e = .integerOverflow raw := by
  constructor
  · intro herror
    rcases h.cases with hnil | ⟨hne, w, hvalue, hw⟩ |
      ⟨before, c, after, w, hdigits, hvalue, hw, hno⟩ |
      ⟨before, after, w, hdigits, hvalue, hw⟩
    · rw [h.decodeInteger_of_nil hnil] at herror
      exact .inl ⟨hnil, (Except.error.inj herror).symm⟩
    · rw [h.decodeInteger_of_value hne hvalue hw] at herror
      cases herror
    · rw [h.decodeInteger_of_invalid hdigits hvalue hw hno] at herror
      have he := (Except.error.inj herror).symm
      exact .inr (.inl ⟨before, c, after, w, hdigits, hvalue, hw, hno, he⟩)
    · rw [h.decodeInteger_of_overflow hdigits hvalue hw] at herror
      exact .inr (.inr ⟨before, after, w, hdigits, hvalue, hw, (Except.error.inj herror).symm⟩)
  · rintro (⟨hnil, rfl⟩ | ⟨before, c, after, w, hdigits, hvalue, hw, hno, rfl⟩ |
      ⟨before, after, w, hdigits, hvalue, hw, rfl⟩)
    · exact h.decodeInteger_of_nil hnil
    · exact h.decodeInteger_of_invalid hdigits hvalue hw hno
    · exact h.decodeInteger_of_overflow hdigits hvalue hw

end Parts

/-- The ways to write a number in a base: digits of either case, with any zeros before them and any
underscores between them, behind a zero and a letter or, in base ten, behind nothing, but then a digit
comes first. -/
inductive Renders (n : Nat) : (radix : Nat) → (text : List Char) → Prop
  | based {letter : Char} {radix : Nat} {written : List Char} : (letter, radix) ∈ bases →
    written.filter (· ≠ '_') ≠ [] → PositionalValue radix (written.filter (· ≠ '_')) n →
    Renders n radix ('0' :: letter :: written)
  | decimal {d : Char} {written : List Char} : d ≠ '_' →
    PositionalValue 10 ((d :: written).filter (· ≠ '_')) n → Renders n 10 (d :: written)

def IsSuffix (suffix : List Char) : Prop := suffix ∈ [] :: integerSuffixes.map String.toList

instance (suffix : List Char) : Decidable (IsSuffix suffix) := inferInstanceAs (Decidable (_ ∈ _))

theorem PositionalValue.isDigit {n : Nat} {c : Char} (h : PositionalValue radix cs n) (hc : c ∈ cs) :
    ∃ d, IsDigit radix c d := by
  obtain ⟨ds, hall, -⟩ := h
  induction hall with
  | nil => cases hc
  | cons hd _ ih =>
    rcases List.mem_cons.mp hc with rfl | hc
    · exact ⟨_, hd⟩
    · exact ih hc

/-- What is written are underscores and digits. -/
theorem PositionalValue.mem {n : Nat} {c : Char}
    (h : PositionalValue radix (cs.filter (· ≠ '_')) n) (hc : c ∈ cs) :
    c = '_' ∨ ∃ d, IsDigit radix c d := by
  by_cases hunderscore : c = '_'
  · exact .inl hunderscore
  · exact .inr (h.isDigit (List.mem_filter.mpr ⟨hc, by simpa using hunderscore⟩))

theorem IsDigit.isDecimal {c : Char} {d : Nat} (h : IsDigit radix c d) (hradix : radix ≤ 10) :
    c.isDigit = true := by
  have hall : ∀ d < 10, d.digitChar.isDigit = true ∧ d.digitChar.toUpper.isDigit = true := by
    decide
  obtain ⟨hd, rfl | rfl⟩ := h
  · exact (hall d (by omega)).1
  · exact (hall d (by omega)).2

theorem PositionalValue.isDecimalPart {n : Nat} (hradix : radix ≤ 10)
    (h : PositionalValue radix (cs.filter (· ≠ '_')) n) : ∀ c ∈ cs, isDecimalPart c = true := by
  intro c hc
  rcases h.mem hc with rfl | ⟨d, hd⟩
  · decide
  · simp [Lexeme.isDecimalPart, hd.isDecimal hradix]

theorem PositionalValue.isHexPart {n : Nat} (h : PositionalValue 16 (cs.filter (· ≠ '_')) n) :
    ∀ c ∈ cs, isHexPart c = true := by
  intro c hc
  rcases h.mem hc with rfl | ⟨d, hd⟩
  · decide
  · simp [Lexeme.isHexPart, hd.isHex]

variable {n : Nat} {text suffix rest : List Char}

theorem IsSuffix.typeSuffix (h : IsSuffix suffix) : TypeSuffix suffix [] := by
  rcases List.mem_cons.mp h with rfl | h
  · refine .inr ⟨rfl, ?_⟩
    have hne : ∀ s ∈ integerSuffixes, ¬s.toList <+: [] := by decide
    exact hne
  · obtain ⟨s, hs, rfl⟩ := List.mem_map.mp h
    exact .inl ⟨s, hs, rfl⟩

/-- A type suffix goes on with no digit and begins with no letter of a base. -/
theorem IsSuffix.ends (h : IsSuffix suffix) :
    Ends isHexPart suffix ∧ Ends isDecimalPart suffix ∧
      Ends (fun c => (basePart? c).isSome) suffix := by
  have hhead : ∀ s ∈ [] :: integerSuffixes.map String.toList, ∀ c ∈ s.head?, c = 'i' ∨ c = 'u' := by
    simp [integerSuffixes]
  have hplain : ∀ c ∈ suffix.head?,
      isHexPart c = false ∧ isDecimalPart c = false ∧ (basePart? c).isSome = false := by
    intro c hc
    rcases hhead suffix h c hc with rfl | rfl
    · decide
    · decide
  exact ⟨fun c hc => (hplain c hc).1, fun c hc => (hplain c hc).2.1, fun c hc => (hplain c hc).2.2⟩

/-- No part of a decimal number is the letter of a base. -/
theorem basePart?_of_isDecimalPart {c : Char} (h : isDecimalPart c = true) : basePart? c = none := by
  cases hpart : basePart? c with
  | none => rfl
  | some isPart =>
    rcases Lexeme.basePart?_eq_some hpart with ⟨rfl, -⟩ | ⟨rfl, -⟩ | ⟨rfl, -⟩ <;>
      exact absurd h (by decide)

theorem basePart?_of_mem_bases {letter : Char} (h : (letter, radix) ∈ bases) :
    (radix ≤ 10 ∧ basePart? letter = some isDecimalPart) ∨
      radix = 16 ∧ basePart? letter = some isHexPart := by
  simp only [bases, List.mem_cons, Prod.mk.injEq, List.not_mem_nil, or_false] at h
  rcases h with ⟨rfl, rfl⟩ | ⟨rfl, rfl⟩ | ⟨rfl, rfl⟩
  · exact .inl ⟨by decide, rfl⟩
  · exact .inl ⟨by decide, rfl⟩
  · exact .inr ⟨rfl, rfl⟩

/-- For the scanner a rendering is the digits of an integer. -/
theorem Renders.digits (h : Renders n radix text) (hsuffix : IsSuffix suffix) :
    Digits text suffix := by
  obtain ⟨hhex, hdecimal, hbase⟩ := hsuffix.ends
  cases h with
  | @based letter _ written hletter hne hvalue =>
    have hwritten : written ≠ [] := by
      rintro rfl
      exact hne rfl
    rcases basePart?_of_mem_bases hletter with ⟨hradix, hpart⟩ | ⟨rfl, hpart⟩
    · exact .based hpart hwritten (hvalue.isDecimalPart hradix) hdecimal
    · exact .based hpart hwritten hvalue.isHexPart hhex
  | @decimal d written hd hvalue =>
    have hall := hvalue.isDecimalPart (Nat.le_refl 10)
    have hdigit : d.isDigit = true := isDigit_of_isDecimalPart (hall d List.mem_cons_self) hd
    refine .decimal hdigit (fun c hc => hall c (List.mem_cons_of_mem d hc)) hdecimal ?_
    intro letter isPart more heq hpart
    -- The second character is a digit, an underscore or the first one of the suffix.
    obtain ⟨-, heq⟩ := List.cons.inj heq
    cases written with
    | nil =>
      rw [List.nil_append] at heq
      have hnone := hbase letter (by rw [heq]; rfl)
      simp [hpart] at hnone
    | cons c written =>
      obtain ⟨rfl, -⟩ := List.cons.inj heq
      have hnone := basePart?_of_isDecimalPart (hall c (by simp))
      rw [hpart] at hnone
      cases hnone

theorem Renders.candidate (h : Renders n radix text) (hsuffix : IsSuffix suffix) :
    Lexeme.integer.Candidate (text ++ suffix) [] := by
  refine ⟨text, suffix, rfl, ?_, hsuffix.typeSuffix⟩
  rw [List.append_nil]
  exact h.digits hsuffix

/-- A rendering has the parts that it is made of. -/
theorem Renders.decodeInteger_eq (h : Renders n radix text) (hsuffix : IsSuffix suffix)
    (hn : n < integerBound) : decodeInteger (String.ofList (text ++ suffix)) = .ok n := by
  have hcut : CutsSuffix (String.ofList (text ++ suffix)).toList text := by
    have hdigits : Digits text (suffix ++ []) := (List.append_nil suffix).symm ▸ h.digits hsuffix
    rw [String.toList_ofList]
    nth_rewrite 2 [← withoutSuffix_eq hdigits hsuffix.typeSuffix]
    exact cutsSuffix_withoutSuffix _
  cases h with
  | @based letter _ written hletter hne hvalue =>
    have hparts : IntegerParts (String.ofList ('0' :: letter :: written ++ suffix)) radix
        (written.filter (· ≠ '_')) := ⟨_, _, hcut, .based hletter, rfl⟩
    exact hparts.decodeInteger_of_value hne hvalue hn
  | @decimal d written hd hvalue =>
    have hall := hvalue.isDecimalPart (Nat.le_refl 10)
    have hbase : CutsBase (d :: written) 10 (d :: written) := by
      apply CutsBase.decimal
      intro letter ds heq radix hletter
      obtain ⟨-, rfl⟩ := List.cons.inj heq
      have hnone := basePart?_of_isDecimalPart (hall letter (by simp))
      rcases basePart?_of_mem_bases hletter with ⟨-, hpart⟩ | ⟨-, hpart⟩
      · simp [hpart] at hnone
      · simp [hpart] at hnone
    have hparts : IntegerParts (String.ofList (d :: written ++ suffix)) 10
        ((d :: written).filter (· ≠ '_')) := ⟨_, _, hcut, hbase, rfl⟩
    apply hparts.decodeInteger_of_value _ hvalue hn
    simp [hd]

/-- The digits of a number behind a zero have its value. -/
theorem positionalValue_digits (n : Nat) (hradix : 2 ≤ radix ∧ radix ≤ 16) :
    let cs := '0' :: (radix.digits n).reverse.map Nat.digitChar
    PositionalValue radix cs n ∧ cs.filter (· ≠ '_') = cs := by
  intro cs
  have hlt : ∀ d ∈ (radix.digits n).reverse, d < radix := by
    intro d hd
    exact Nat.digits_lt_base hradix.1 (List.mem_reverse.mp hd)
  constructor
  · refine ⟨0 :: (radix.digits n).reverse, ?_, ?_⟩
    · apply List.Forall₂.cons
      · exact ⟨by omega, .inl rfl⟩
      · rw [List.forall₂_map_left_iff, List.forall₂_same]
        intro d hd
        exact ⟨hlt d hd, .inl rfl⟩
    · rw [List.reverse_cons, List.reverse_reverse, Nat.ofDigits_append_zero, Nat.ofDigits_digits]
  · have hne : ∀ d < 16, d.digitChar ≠ '_' := by decide
    rw [List.filter_eq_self]
    intro c hc
    rcases List.mem_cons.mp hc with rfl | hc
    · decide
    · obtain ⟨d, hd, rfl⟩ := List.mem_map.mp hc
      have hdigit := hlt d hd
      exact decide_eq_true (hne d (by omega))

/-- Every number has renderings in every base. -/
theorem exists_renders (n : Nat) :
    (∃ text, Renders n 10 text) ∧ ∀ p ∈ bases, ∃ text, Renders n p.2 text := by
  constructor
  · have hradix : 2 ≤ 10 ∧ 10 ≤ 16 := by decide
    obtain ⟨hvalue, hfilter⟩ := positionalValue_digits n hradix
    rw [← hfilter] at hvalue
    exact ⟨_, .decimal (by decide) hvalue⟩
  · rintro ⟨letter, radix⟩ hletter
    have hradix : ∀ p ∈ bases, 2 ≤ p.2 ∧ p.2 ≤ 16 := by decide
    obtain ⟨hvalue, hfilter⟩ := positionalValue_digits n (hradix _ hletter)
    rw [← hfilter] at hvalue
    refine ⟨_, .based hletter ?_ hvalue⟩
    rw [hfilter]
    exact List.cons_ne_nil _ _

/-- The value of an integer is exact. Once its type suffix and the letter of its base are cut off and
underscores are dropped, it has a value just if digits are left whose value by their positions is
below the bound, and it is that; else, from the left, the first character that is no digit is blamed
if the value before it is below the bound, an overflow if digits reach the bound, and the whole
literal if there are no digits. And so, wherever the scanner stops before a rendering of a number and
its suffix, and what follows does not make it a longer integer, it makes one token of it, and the
value of that is the number. -/
theorem decodeInteger_exact :
    (∀ raw, ∃ radix digits, IntegerParts raw radix digits) ∧
    (∀ raw radix digits, IntegerParts raw radix digits →
      (∀ v, decodeInteger raw = .ok v ↔
        digits ≠ [] ∧ PositionalValue radix digits v ∧ v < integerBound) ∧
      ∀ e, decodeInteger raw = .error e ↔
        digits = [] ∧ e = .malformedLiteral raw ∨
        (∃ before c after v, digits = before ++ c :: after ∧ PositionalValue radix before v ∧
          v < integerBound ∧ (∀ d, ¬IsDigit radix c d) ∧ e = .invalidDigit c radix) ∨
        ∃ before after v, digits = before ++ after ∧ PositionalValue radix before v ∧
          integerBound ≤ v ∧ e = .integerOverflow raw) ∧
    ∀ n radix text suffix, n < integerBound → Renders n radix text → IsSuffix suffix →
      decodeInteger (String.ofList (text ++ suffix)) = .ok n ∧
      ∀ (source : String) taken rest, Token.Stops source.toList taken (text ++ suffix ++ rest) →
        (∀ more, more ≠ [] → more <+: rest →
          ¬Lexeme.integer.Candidate (text ++ suffix ++ more) []) →
        Token.Emits source taken .integer .integer (text ++ suffix) rest := by
  refine ⟨exists_integerParts, ?_, ?_⟩
  · intro raw radix digits h
    exact ⟨fun v => h.decodeInteger_eq_ok_iff, fun e => h.decodeInteger_eq_error_iff⟩
  · intro n radix text suffix hn h hsuffix
    constructor
    · exact h.decodeInteger_eq hsuffix hn
    · intro source taken rest hstops hmax
      have hcandidate := (h.candidate hsuffix).of_maximal hmax
      exact hstops.emits (by decide) (by decide) hcandidate rfl

/-- A hexadecimal number with an underscore, digits of both cases and a suffix, before another suffix,
which does not make it longer; and a binary number with a digit that is none. -/
theorem decodeInteger_exact_hexadecimal :
    let text := ['0', 'x', '_', '0', 'f', 'F']
    decodeInteger (String.ofList (text ++ ['u', '8'])) = .ok 255 ∧
    Token.Emits "0x_0fFu8u8" [] .integer .integer (text ++ ['u', '8']) ['u', '8'] ∧
    decodeInteger "0b12" = .error (.invalidDigit '2' 2) := by
  intro text
  obtain ⟨-, hparts, hrenders⟩ := decodeInteger_exact
  have htext : Renders 255 16 text := by
    have hvalue : PositionalValue 16 ['0', 'f', 'F'] 255 := by
      refine ⟨[0, 15, 15], ?_, by decide⟩
      exact .cons (by decide) (.cons (by decide) (.cons (by decide) .nil))
    exact .based (by decide) (by decide) hvalue
  have hbound : 255 < integerBound := by decide
  obtain ⟨hvalue, hemits⟩ := hrenders 255 16 text ['u', '8'] hbound htext (by decide)
  refine ⟨hvalue, hemits _ [] _ (.here _) ?_, ?_⟩
  · intro more hne hmore hcandidate
    have hlength := hcandidate.length_eq
    rcases List.prefix_cons_iff.mp hmore with rfl | ⟨tail, rfl, htail⟩
    · exact hne rfl
    · rcases List.prefix_cons_iff.mp htail with rfl | ⟨last, rfl, hlast⟩
      · exact absurd hlength (by decide)
      · obtain rfl := List.prefix_nil.mp hlast
        exact absurd hlength (by decide)
  · have hbase : CutsBase ['0', 'b', '1', '2'] 2 ['1', '2'] := .based (by decide)
    have hcut : IntegerParts "0b12" 2 ['1', '2'] := ⟨_, _, .inr ⟨rfl, by decide⟩, hbase, rfl⟩
    have hone : PositionalValue 2 ['1'] 1 := ⟨[1], .cons (by decide) .nil, by decide⟩
    have hno : ∀ d, ¬IsDigit 2 '2' d := by
      intro d hd
      have hall : ∀ d < 2, ¬IsDigit 2 '2' d := by decide
      exact hall d hd.1 hd
    have hfits : 1 < integerBound := by decide
    apply ((hparts _ _ _ hcut).2 _).mpr
    exact .inr (.inl ⟨['1'], '2', [], 1, rfl, hone, hfits, hno, rfl⟩)

end Literal

end FrontEnd
