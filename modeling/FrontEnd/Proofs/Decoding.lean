import FrontEnd.Proofs.LongestLexeme
/-!
# Decoding what the scanner delimits

The text of a literal token has the shape that its decoder expects. What the decoder may still
object to is an escape sequence, a digit too large for its base, a value too large, or a base without
digits.
-/
namespace FrontEnd.Literal

open Lexeme (Digits TypeSuffix Quotation StringBody basePart? isDecimalPart isHexPart isHexDigit)

variable {cs ds text rest digits suffix : List Char}

theorem afterFront?_eq_some_iff {front : List Char} :
    afterFront? front cs = some ds ↔ cs = front ++ ds := by
  induction front generalizing cs with
  | nil => simp [afterFront?]
  | cons f front ih =>
    cases cs with
    | nil => simp [afterFront?]
    | cons c cs =>
      rw [afterFront?]
      split
      · next h => simp [h, ih]
      · next h => simp [Ne.symm h]

theorem beforeBack?_eq_some_iff {back : List Char} :
    beforeBack? back cs = some ds ↔ cs = ds ++ back := by
  simp only [beforeBack?, Option.map_eq_some_iff, afterFront?_eq_some_iff]
  constructor
  · rintro ⟨es, hes, rfl⟩
    have h := congrArg List.reverse hes
    simpa using h
  · rintro rfl
    exact ⟨ds.reverse, by simp⟩

theorem unquote_eq (quote : Char) (body : List Char) :
    unquote quote (String.ofList (quote :: (body ++ [quote]))) = .ok body := by
  have hfront : afterFront? [quote] (quote :: (body ++ [quote])) = some (body ++ [quote]) :=
    afterFront?_eq_some_iff.mpr rfl
  have hback : beforeBack? [quote] (body ++ [quote]) = some body := beforeBack?_eq_some_iff.mpr rfl
  simp [unquote, hfront, hback]

theorem resolveEscapes_error {e : DecodeError} (h : resolveEscapes cs = .error e) :
    ∃ sequence, e = .invalidEscape sequence := by
  have step {c : Char} {cs : List Char} (h : (c :: ·) <$> resolveEscapes cs = .error e)
      (ih : resolveEscapes cs = .error e → ∃ sequence, e = .invalidEscape sequence) :
      ∃ sequence, e = .invalidEscape sequence := by
    cases hcs : resolveEscapes cs with
    | ok v =>
      rw [hcs] at h
      cases h
    | error e' =>
      rw [hcs] at h
      cases h
      exact ih hcs
  fun_induction resolveEscapes cs
  case case1 => cases h
  case case2 | case3 | case4 | case6 | case8 => exact ⟨_, (Except.error.inj h).symm⟩
  case case5 ih | case7 ih | case9 ih => exact step h ih

/-- A string always has its quotes; only an escape sequence may be wrong. -/
theorem decodeString_outcome (body : List Char) :
    (∃ v, decodeString (String.ofList ('"' :: body ++ ['"'])) = .ok v) ∨
      ∃ sequence, decodeString (String.ofList ('"' :: body ++ ['"'])) =
        .error (.invalidEscape sequence) := by
  have hdecode : decodeString (String.ofList ('"' :: body ++ ['"'])) =
      (resolveEscapes body >>= fun cs => pure (String.ofList cs)) := by
    rw [decodeString, List.cons_append, unquote_eq]
    rfl
  rw [hdecode]
  cases h : resolveEscapes body with
  | ok v => exact .inl ⟨_, rfl⟩
  | error e =>
    obtain ⟨sequence, rfl⟩ := resolveEscapes_error h
    exact .inr ⟨sequence, rfl⟩

theorem digitOf_hex {c : Char} (h : isHexDigit c = true) : ∃ d, digitOf 16 c = some d := by
  simp only [isHexDigit, Char.isDigit, Bool.or_eq_true, Bool.and_eq_true, decide_eq_true_eq,
    Char.le_def, UInt32.le_iff_toNat_le, ge_iff_le] at h
  change ((48 ≤ c.toNat ∧ c.toNat ≤ 57) ∨ (97 ≤ c.toNat ∧ c.toNat ≤ 102)) ∨
    (65 ≤ c.toNat ∧ c.toNat ≤ 70) at h
  simp only [digitOf, digitValue, Option.filter_eq_some_iff, decide_eq_true_eq]
  rcases h with (h | h) | h
  · exact ⟨c.toNat - 48, by rw [if_pos h], by omega⟩
  · refine ⟨c.toNat - 97 + 10, ?_, by omega⟩
    rw [if_neg (by omega), if_pos (by omega)]
  · refine ⟨c.toNat - 65 + 10, ?_, by omega⟩
    rw [if_neg (by omega), if_neg (by omega), if_pos (by omega)]

/-- The digit that a decimal digit is in a base. -/
theorem digitOf_decimal {c : Char} (h : c.isDigit = true) (radix : Nat) :
    digitOf radix c = if c.toNat - 48 < radix then some (c.toNat - 48) else none := by
  have hdigit : 48 ≤ c.toNat ∧ c.toNat ≤ 57 := by
    simpa [Char.isDigit, UInt32.le_iff_toNat_le] using h
  simp only [digitOf, digitValue, if_pos hdigit, Option.filter_some, decide_eq_true_eq]

/-- A character in quotes is one; only an escape sequence may be wrong. -/
theorem decodeChar_outcome (h : Quotation text) :
    (∃ v, decodeChar (String.ofList text) = .ok v) ∨
      ∃ sequence, decodeChar (String.ofList text) = .error (.invalidEscape sequence) := by
  have decode (body : List Char) :
      (∀ c, resolveEscapes body = .ok [c] →
        decodeChar (String.ofList ('\x27' :: (body ++ ['\x27']))) = .ok c) ∧
      ∀ e, resolveEscapes body = .error e →
        decodeChar (String.ofList ('\x27' :: (body ++ ['\x27']))) = .error e := by
    constructor <;> intro _ h <;> simp only [decodeChar, unquote_eq, bind, Except.bind, h]
  rcases h with ⟨c, rfl, -, hslash, -⟩ | ⟨c, rfl, -⟩ | ⟨a, b, rfl, ha, hb⟩
  · refine .inl ⟨c, (decode [c]).1 c ?_⟩
    rw [resolveEscapes]
    · rfl
    all_goals simp [hslash]
  · by_cases hx : c = 'x'
    · subst hx
      exact .inr ⟨_, (decode ['\\', 'x']).2 _ rfl⟩
    · have hescape : resolveEscapes ['\\', c] =
          (simpleEscape? c).elim (.error (.invalidEscape (String.ofList ['\\', c])))
            fun d => .ok [d] := by
        rw [resolveEscapes]
        · cases simpleEscape? c <;> rfl
        all_goals simp [hx]
      cases hc : simpleEscape? c with
      | some d => exact .inl ⟨d, (decode ['\\', c]).1 d (by rw [hescape, hc]; rfl)⟩
      | none => exact .inr ⟨_, (decode ['\\', c]).2 _ (by rw [hescape, hc]; rfl)⟩
  · obtain ⟨x, hx⟩ := digitOf_hex ha
    obtain ⟨y, hy⟩ := digitOf_hex hb
    refine .inl ⟨Char.ofNat (16 * x + y), (decode ['\\', 'x', a, b]).1 _ ?_⟩
    simp only [resolveEscapes, hexEscape?, hx, hy]
    rfl

/-- The character is the digit of a value in a base, of either case where it is a letter. -/
def IsDigit (radix : Nat) (c : Char) (d : Nat) : Prop :=
  d < radix ∧ (c = d.digitChar ∨ c = d.digitChar.toUpper)

instance (radix : Nat) (c : Char) (d : Nat) : Decidable (IsDigit radix c d) :=
  inferInstanceAs (Decidable (_ ∧ _))

theorem digitValue_digitChar : ∀ d < 16,
    digitValue d.digitChar = some d ∧ digitValue d.digitChar.toUpper = some d := by
  decide

/-- The characters that have a value below sixteen are the digits of that value. -/
theorem digitValue_eq_some_iff {c : Char} {d : Nat} (hd : d < 16) :
    digitValue c = some d ↔ c = d.digitChar ∨ c = d.digitChar.toUpper := by
  constructor
  · intro h
    have hdecimal : ∀ d < 10, Char.ofNat (d + 0x30) = d.digitChar := by decide
    have hletter : ∀ d < 16, 10 ≤ d → Char.ofNat (d - 10 + 0x61) = d.digitChar ∧
        Char.ofNat (d - 10 + 0x41) = d.digitChar.toUpper := by decide
    rw [← Char.ofNat_toNat c]
    simp only [digitValue] at h
    split at h
    · obtain rfl := Option.some.inj h
      left
      rw [← hdecimal _ (by omega)]
      congr 1
      omega
    · split at h
      · obtain rfl := Option.some.inj h
        left
        rw [← (hletter _ hd (by omega)).1]
        congr 1
        omega
      · split at h
        · obtain rfl := Option.some.inj h
          right
          rw [← (hletter _ hd (by omega)).2]
          congr 1
          omega
        · cases h
  · rintro (rfl | rfl)
    · exact (digitValue_digitChar d hd).1
    · exact (digitValue_digitChar d hd).2

/-- The reader of digits knows all digits of a base up to sixteen. -/
theorem digitOf_eq_some_iff {radix : Nat} (hradix : radix ≤ 16) {c : Char} {d : Nat} :
    digitOf radix c = some d ↔ IsDigit radix c d := by
  rw [digitOf, Option.filter_eq_some_iff, decide_eq_true_eq, IsDigit, And.comm]
  apply and_congr_right
  intro hd
  exact digitValue_eq_some_iff (by omega)

theorem digitOf_eq_none_iff {radix : Nat} (hradix : radix ≤ 16) {c : Char} :
    digitOf radix c = none ↔ ∀ d, ¬IsDigit radix c d := by
  simp only [Option.eq_none_iff_forall_ne_some, ne_eq, digitOf_eq_some_iff hradix]

theorem IsDigit.isHex {c : Char} {d : Nat} (h : IsDigit 16 c d) : isHexDigit c = true := by
  have hall : ∀ d < 16, isHexDigit d.digitChar = true ∧ isHexDigit d.digitChar.toUpper = true := by
    decide
  obtain ⟨hd, rfl | rfl⟩ := h
  · exact (hall d hd).1
  · exact (hall d hd).2

theorem integerSuffixes_suffix : ∀ s ∈ integerSuffixes, ∀ s' ∈ integerSuffixes,
    s.toList <:+ s'.toList → s = s' := by
  decide

/-- A type suffix begins with a letter that stands in no digits. -/
theorem integerSuffixes_head {s : String} (h : s ∈ integerSuffixes) :
    ∃ c cs, s.toList = c :: cs ∧ isHexPart c = false ∧ c ∉ ['b', 'o', 'x'] := by
  have hhead : ∀ s ∈ integerSuffixes,
      (s.toList.head?.map fun c => isHexPart c || c ∈ ['b', 'o', 'x']) = some false := by
    decide
  obtain ⟨c, hc, hhex⟩ := Option.map_eq_some_iff.mp (hhead s h)
  obtain ⟨cs, hs⟩ := List.head?_eq_some_iff.mp hc
  exact ⟨c, cs, hs, by simpa using hhex⟩

theorem isHexPart_of_isDecimalPart {c : Char} (h : isDecimalPart c = true) : isHexPart c = true := by
  simp only [isDecimalPart, isHexPart, isHexDigit, Bool.or_eq_true] at h ⊢
  rcases h with h | h <;> simp [h]

theorem Digits.mem (h : Digits digits rest) :
    ∀ c ∈ digits, isHexPart c = true ∨ c ∈ ['b', 'o', 'x'] := by
  cases h with
  | @based letter isPart ds _ hletter hne hall hends =>
    rw [List.forall_mem_cons, List.forall_mem_cons]
    refine ⟨.inl (by decide), .inr ?_, fun c hc => .inl ?_⟩
    · rcases Lexeme.basePart?_eq_some hletter with ⟨rfl, -⟩ | ⟨rfl, -⟩ | ⟨rfl, -⟩ <;> decide
    · rcases Lexeme.basePart?_eq_some hletter with ⟨-, rfl⟩ | ⟨-, rfl⟩ | ⟨-, rfl⟩
      · exact isHexPart_of_isDecimalPart (hall c hc)
      · exact isHexPart_of_isDecimalPart (hall c hc)
      · exact hall c hc
  | decimal hd hall hends hbase =>
    rw [List.forall_mem_cons]
    refine ⟨.inl (isHexPart_of_isDecimalPart (by simp [isDecimalPart, hd])), fun c hc => .inl ?_⟩
    exact isHexPart_of_isDecimalPart (hall c hc)

/-- The decoder cuts off the type suffix that the scanner found. -/
theorem withoutSuffix_eq (hdigits : Digits digits (suffix ++ rest))
    (hsuffix : TypeSuffix suffix rest) :
    withoutSuffix (digits ++ suffix) = digits := by
  -- Only the suffix itself stands at the end of the text.
  have hfind : ∀ s ∈ integerSuffixes, ∀ ds, digits ++ suffix = ds ++ s.toList →
      suffix = s.toList := by
    intro s hs ds hds
    have hback : s.toList <:+ digits ++ suffix := ⟨ds, hds.symm⟩
    rcases hsuffix with ⟨s', hs', rfl⟩ | ⟨rfl, -⟩
    · rcases List.suffix_or_suffix_of_suffix hback (List.suffix_append _ _) with h | h
      · rw [integerSuffixes_suffix s hs s' hs' h]
      · rw [integerSuffixes_suffix s' hs' s hs h]
    · obtain ⟨c, cs, hc, hno, hletter⟩ := integerSuffixes_head hs
      have hmem : c ∈ digits := by
        rw [List.append_nil] at hback
        exact hback.subset (by simp [hc])
      rcases Digits.mem hdigits c hmem with h | h
      · simp [hno] at h
      · exact absurd h hletter
  rw [withoutSuffix]
  cases hcut : integerSuffixes.findSome? fun s => beforeBack? s.toList (digits ++ suffix) with
  | none =>
    rw [List.findSome?_eq_none_iff] at hcut
    rcases hsuffix with ⟨s, hs, rfl⟩ | ⟨rfl, -⟩
    · have hsome : beforeBack? s.toList (digits ++ s.toList) = some digits :=
        beforeBack?_eq_some_iff.mpr rfl
      cases hsome.symm.trans (hcut s hs)
    · exact List.append_nil digits
  | some ds =>
    obtain ⟨s, hs, hds⟩ := List.exists_of_findSome?_eq_some hcut
    rw [beforeBack?_eq_some_iff] at hds
    rw [hfind s hs ds hds] at hds
    exact (List.append_cancel_right hds).symm

/-- Digits are read until one is none in the base or the value is too large. -/
theorem readDigits_error {raw : String} {radix value : Nat} {e : DecodeError}
    (h : readDigits raw radix value cs = .error e) :
    e = .integerOverflow raw ∨ ∃ c ∈ cs, digitOf radix c = none ∧ e = .invalidDigit c radix := by
  induction cs generalizing value with
  | nil => cases h
  | cons c cs ih =>
    rw [readDigits] at h
    split at h
    · next hnone => exact .inr ⟨c, List.mem_cons_self, hnone, (Except.error.inj h).symm⟩
    · split at h
      · rcases ih h with rfl | ⟨d, hd, hnone, rfl⟩
        · exact .inl rfl
        · exact .inr ⟨d, List.mem_cons_of_mem _ hd, hnone, rfl⟩
      · exact .inl (Except.error.inj h).symm

theorem decodeInteger_error_cases (radix : Nat) {e : DecodeError} {raw : String}
    (hradix : radixAndDigits (withoutSuffix raw.toList) = (radix, ds))
    (h : decodeInteger raw = .error e) :
    e = .malformedLiteral raw ∧ (∀ c ∈ ds, c = '_') ∨ e = .integerOverflow raw ∨
      ∃ c ∈ ds, c ≠ '_' ∧ digitOf radix c = none ∧ e = .invalidDigit c radix := by
  rw [decodeInteger, hradix] at h
  simp only at h
  split at h
  · next hnil =>
    refine .inl ⟨(Except.error.inj h).symm, fun c hc => ?_⟩
    simpa using List.filter_eq_nil_iff.mp hnil c hc
  · rcases readDigits_error h with rfl | ⟨c, hc, hnone, rfl⟩
    · exact .inr (.inl rfl)
    · obtain ⟨hmem, hne⟩ := List.mem_filter.mp hc
      exact .inr (.inr ⟨c, hmem, by simpa using hne, hnone, rfl⟩)

inductive IntegerError (digits : List Char) : DecodeError → Prop
  | overflow (raw : String) : IntegerError digits (.integerOverflow raw)
  /-- A decimal digit that is too large for a base below ten. -/
  | digit {c : Char} {radix : Nat} : c ∈ digits → radix = 2 ∨ radix = 8 → c.isDigit = true →
    radix ≤ c.toNat - 48 → IntegerError digits (.invalidDigit c radix)
  /-- A base and underscores alone. -/
  | noDigit {letter : Char} {underscores : List Char} (raw : String) : letter ∈ ['b', 'o', 'x'] →
    digits = '0' :: letter :: underscores → (∀ c ∈ underscores, c = '_') →
    IntegerError digits (.malformedLiteral raw)

theorem radixAndDigits_decimal {d : Char} (hall : ∀ c ∈ ds, isDecimalPart c = true) :
    radixAndDigits (d :: ds) = (10, d :: ds) := by
  unfold radixAndDigits
  split
  · next heq => cases heq; exact absurd (hall 'b' List.mem_cons_self) (by decide)
  · next heq => cases heq; exact absurd (hall 'o' List.mem_cons_self) (by decide)
  · next heq => cases heq; exact absurd (hall 'x' List.mem_cons_self) (by decide)
  · rfl

theorem isDigit_of_isDecimalPart {c : Char} (h : isDecimalPart c = true) (hne : c ≠ '_') :
    c.isDigit = true := by
  simpa [isDecimalPart, hne] using h

/-- An integer that the scanner delimits has a value, or what is wrong with it is a digit too large
for its base, its size, or a base without digits. -/
theorem decodeInteger_error {e : DecodeError} (hdigits : Digits digits (suffix ++ rest))
    (hsuffix : TypeSuffix suffix rest)
    (h : decodeInteger (String.ofList (digits ++ suffix)) = .error e) : IntegerError digits e := by
  have hwithout : withoutSuffix (String.ofList (digits ++ suffix)).toList = digits := by
    rw [String.toList_ofList, withoutSuffix_eq hdigits hsuffix]
  -- A digit below ten that is none in a smaller base.
  have small {c : Char} {radix : Nat} (hmem : c ∈ digits) (hradix : radix = 2 ∨ radix = 8)
      (hpart : isDecimalPart c = true) (hne : c ≠ '_') (hnone : digitOf radix c = none) :
      IntegerError digits (.invalidDigit c radix) := by
    have hdigit := isDigit_of_isDecimalPart hpart hne
    rw [digitOf_decimal hdigit] at hnone
    refine .digit hmem hradix hdigit ?_
    by_contra hlt
    rw [if_pos (by omega)] at hnone
    cases hnone
  cases hdigits with
  | @based letter isPart ds _ hletter hne hall hends =>
    have hmem {c : Char} (hc : c ∈ ds) : c ∈ '0' :: letter :: ds := by simp [hc]
    rcases Lexeme.basePart?_eq_some hletter with ⟨rfl, rfl⟩ | ⟨rfl, rfl⟩ | ⟨rfl, rfl⟩
    · rcases decodeInteger_error_cases 2 (by rw [hwithout]; rfl) h with
        ⟨rfl, hunder⟩ | rfl | ⟨c, hc, hne, hnone, rfl⟩
      · exact .noDigit _ (by decide) rfl hunder
      · exact .overflow _
      · exact small (hmem hc) (.inl rfl) (hall c hc) hne hnone
    · rcases decodeInteger_error_cases 8 (by rw [hwithout]; rfl) h with
        ⟨rfl, hunder⟩ | rfl | ⟨c, hc, hne, hnone, rfl⟩
      · exact .noDigit _ (by decide) rfl hunder
      · exact .overflow _
      · exact small (hmem hc) (.inr rfl) (hall c hc) hne hnone
    · rcases decodeInteger_error_cases 16 (by rw [hwithout]; rfl) h with
        ⟨rfl, hunder⟩ | rfl | ⟨c, hc, hne, hnone, rfl⟩
      · exact .noDigit _ (by decide) rfl hunder
      · exact .overflow _
      · obtain ⟨d, hd⟩ := digitOf_hex (by simpa [isHexPart, hne] using hall c hc)
        rw [hd] at hnone
        cases hnone
  | @decimal d ds _ hd hall hends hbase =>
    have hradix : radixAndDigits (withoutSuffix (String.ofList (d :: ds ++ suffix)).toList) =
        (10, d :: ds) := by rw [hwithout, radixAndDigits_decimal hall]
    rcases decodeInteger_error_cases 10 hradix h with ⟨rfl, hunder⟩ | rfl | ⟨c, hc, hne, hnone, rfl⟩
    · obtain rfl := hunder d List.mem_cons_self
      exact absurd hd (by decide)
    · exact .overflow _
    · have hdigit : c.isDigit = true := by
        rcases List.mem_cons.mp hc with rfl | hc
        · exact hd
        · exact isDigit_of_isDecimalPart (hall c hc) hne
      have hten : c.toNat - 48 < 10 := by
        have hrange : 48 ≤ c.toNat ∧ c.toNat ≤ 57 := by
          simpa [Char.isDigit, UInt32.le_iff_toNat_le] using hdigit
        omega
      rw [digitOf_decimal hdigit, if_pos hten] at hnone
      cases hnone

end FrontEnd.Literal
