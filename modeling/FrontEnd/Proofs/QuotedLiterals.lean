import FrontEnd.Proofs.Decoding
import FrontEnd.Proofs.Scanning
/-!
# Characters and strings are read back

However the characters of a text are spelled between quotes, each as itself or as an escape sequence,
the scanner takes the whole literal and its value is the text. The scanner knows less of escape
sequences than the decoder: for it a backslash takes any character with it. The decoder accepts
nothing but spellings and blames the first sequence that is none.
-/
namespace FrontEnd

open Literal (IsDigit)

namespace Literal

def escapes : List (Char × Char) :=
  [('n', '\n'), ('r', '\r'), ('t', '\t'), ('"', '"'), ('\x27', '\x27'), ('\\', '\\'), ('0', '\x00')]

/-- The ways to write one character: as itself where that is plain, with a backslash, or with two
hexadecimal digits that give its code. -/
inductive Spells (plain : Char → Prop) : Char → List Char → Prop
  | plain {c : Char} : plain c → Spells plain c [c]
  | escape {e c : Char} : (e, c) ∈ escapes → Spells plain c ['\\', e]
  | hex {a b c : Char} {x y : Nat} : IsDigit 16 a x → IsDigit 16 b y → c.toNat = 16 * x + y →
    Spells plain c ['\\', 'x', a, b]

inductive SpellsText (plain : Char → Prop) : (text body : List Char) → Prop
  | nil : SpellsText plain [] []
  | cons {c : Char} {piece text body : List Char} : Spells plain c piece →
    SpellsText plain text body → SpellsText plain (c :: text) (piece ++ body)

/-- A backslash that begins no escape sequence, with as much of what follows it as was looked at. -/
inductive BadEscape : (sequence rest : List Char) → Prop
  | alone : BadEscape ['\\'] []
  | short {digits : List Char} : digits.length < 2 → BadEscape ('\\' :: 'x' :: digits) []
  | digits {a b : Char} {rest : List Char} : (∀ x, ¬IsDigit 16 a x) ∨ (∀ y, ¬IsDigit 16 b y) →
    BadEscape ['\\', 'x', a, b] rest
  | unknown {e : Char} {rest : List Char} : e ≠ 'x' → (∀ c, (e, c) ∉ escapes) →
    BadEscape ['\\', e] rest

/-- Between spelled characters and the rest of a text stands the first sequence that is bad. -/
def FirstBad (body sequence : List Char) : Prop :=
  ∃ text before rest, SpellsText (· ≠ '\\') text before ∧ body = before ++ (sequence ++ rest) ∧
    BadEscape sequence rest

variable {plain : Char → Prop} {c : Char} {piece text body rest : List Char}

theorem Spells.mono {plain' : Char → Prop} (h : Spells plain c piece)
    (hplain : ∀ c, plain c → plain' c) : Spells plain' c piece := by
  cases h with
  | plain hc => exact .plain (hplain c hc)
  | escape he => exact .escape he
  | hex ha hb hc => exact .hex ha hb hc

theorem SpellsText.mono {plain' : Char → Prop} (h : SpellsText plain text body)
    (hplain : ∀ c, plain c → plain' c) : SpellsText plain' text body := by
  induction h with
  | nil => exact .nil
  | cons hc _ ih => exact .cons (hc.mono hplain) ih

theorem Spells.single (h : Spells plain c piece) : SpellsText plain [c] piece := by
  have htext := SpellsText.cons h .nil
  rwa [List.append_nil] at htext

/-- The escapes that the decoder knows are those of the list. -/
theorem simpleEscape?_eq_some_iff {e : Char} : simpleEscape? e = some c ↔ (e, c) ∈ escapes := by
  constructor
  · intro h
    unfold simpleEscape? at h
    split at h <;> cases h <;> decide
  · intro h
    have hall : ∀ p ∈ escapes, simpleEscape? p.1 = some p.2 := by decide
    exact hall (e, c) h

/-- No escape sequence of two characters begins like one of four, or ends a line. -/
theorem escapes_ne_x : ∀ p ∈ escapes, p.1 ≠ 'x' ∧ p.1 ≠ '\n' := by
  decide

theorem toNat_ofNat_hex {a b : Char} {x y : Nat} (ha : IsDigit 16 a x) (hb : IsDigit 16 b y) :
    (Char.ofNat (16 * x + y)).toNat = 16 * x + y := by
  have hx := ha.1
  have hy := hb.1
  have hvalid : (16 * x + y).isValidChar := .inl (by omega)
  rw [Char.ofNat, dif_pos hvalid]
  rfl

theorem hexEscape?_eq_some_iff {a b : Char} : hexEscape? [a, b] = some c ↔
    ∃ x y, IsDigit 16 a x ∧ IsDigit 16 b y ∧ c.toNat = 16 * x + y := by
  constructor
  · intro h
    simp only [hexEscape?] at h
    split at h
    · next x y hx hy =>
      obtain rfl := Option.some.inj h
      have hx := (digitOf_eq_some_iff (Nat.le_refl 16)).mp hx
      have hy := (digitOf_eq_some_iff (Nat.le_refl 16)).mp hy
      exact ⟨x, y, hx, hy, toNat_ofNat_hex hx hy⟩
    · cases h
  · rintro ⟨x, y, hx, hy, hc⟩
    rw [hexEscape?, (digitOf_eq_some_iff (Nat.le_refl 16)).mpr hx,
      (digitOf_eq_some_iff (Nat.le_refl 16)).mpr hy]
    simp only [← hc, Char.ofNat_toNat]

/-- A spelled character is resolved, whatever follows it. -/
theorem Spells.resolveEscapes_append (h : Spells (· ≠ '\\') c piece) (rest : List Char) :
    resolveEscapes (piece ++ rest) = (c :: ·) <$> resolveEscapes rest := by
  cases h with
  | plain hc =>
    rw [List.singleton_append, resolveEscapes]
    all_goals simp [hc]
  | @escape e _ he =>
    have hx : e ≠ 'x' := (escapes_ne_x _ he).1
    rw [List.cons_append, List.singleton_append, resolveEscapes, simpleEscape?_eq_some_iff.mpr he]
    all_goals simp [hx]
  | hex ha hb hc =>
    have hhex := hexEscape?_eq_some_iff.mpr ⟨_, _, ha, hb, hc⟩
    simp only [List.cons_append, List.nil_append, resolveEscapes, hhex]

theorem SpellsText.resolveEscapes_append (h : SpellsText (· ≠ '\\') text body) (rest : List Char) :
    resolveEscapes (body ++ rest) = (text ++ ·) <$> resolveEscapes rest := by
  induction h with
  | nil => cases h : resolveEscapes rest <;> simp [h, Functor.map, Except.map]
  | cons hc _ ih =>
    rw [List.append_assoc, hc.resolveEscapes_append, ih]
    cases resolveEscapes rest <;> rfl

/-- A bad sequence is blamed, whatever follows it. -/
theorem BadEscape.resolveEscapes_append {sequence : List Char} (h : BadEscape sequence rest) :
    resolveEscapes (sequence ++ rest) = .error (.invalidEscape (String.ofList sequence)) := by
  cases h with
  | alone => rfl
  | @short digits hshort =>
    match digits with
    | [] => rfl
    | [a] => rfl
    | _ :: _ :: _ =>
      simp only [List.length_cons] at hshort
      omega
  | @digits a b _ hno =>
    have hnone : hexEscape? [a, b] = none := by
      rw [Option.eq_none_iff_forall_ne_some]
      intro c hc
      obtain ⟨x, y, hx, hy, -⟩ := hexEscape?_eq_some_iff.mp hc
      rcases hno with hno | hno
      · exact hno x hx
      · exact hno y hy
    simp only [List.cons_append, List.nil_append, resolveEscapes, hnone]
  | @unknown e _ hx hno =>
    have hnone : simpleEscape? e = none := by
      rw [Option.eq_none_iff_forall_ne_some]
      intro c hc
      exact hno c (simpleEscape?_eq_some_iff.mp hc)
    rw [List.cons_append, List.singleton_append, resolveEscapes, hnone]
    all_goals simp [hx]

/-- A text begins with a spelled character or with a bad sequence. -/
theorem exists_spells_or_bad (c : Char) (cs : List Char) :
    (∃ d piece rest, c :: cs = piece ++ rest ∧ Spells (· ≠ '\\') d piece) ∨
      ∃ sequence rest, c :: cs = sequence ++ rest ∧ BadEscape sequence rest := by
  by_cases hc : c = '\\'
  · subst hc
    match cs with
    | [] => exact .inr ⟨_, _, (List.append_nil _).symm, .alone⟩
    | e :: cs =>
      by_cases hx : e = 'x'
      · subst hx
        match cs with
        | [] => exact .inr ⟨_, _, (List.append_nil _).symm, .short Nat.two_pos⟩
        | [a] => exact .inr ⟨_, _, (List.append_nil _).symm, .short Nat.one_lt_two⟩
        | a :: b :: cs =>
          match ha : digitOf 16 a, hb : digitOf 16 b with
          | some x, some y =>
            have ha := (digitOf_eq_some_iff (Nat.le_refl 16)).mp ha
            have hb := (digitOf_eq_some_iff (Nat.le_refl 16)).mp hb
            exact .inl ⟨_, _, cs, rfl, .hex ha hb (toNat_ofNat_hex ha hb)⟩
          | none, _ =>
            have ha := (digitOf_eq_none_iff (Nat.le_refl 16)).mp ha
            exact .inr ⟨_, cs, rfl, .digits (.inl ha)⟩
          | _, none =>
            have hb := (digitOf_eq_none_iff (Nat.le_refl 16)).mp hb
            exact .inr ⟨_, cs, rfl, .digits (.inr hb)⟩
      · by_cases he : ∃ d, (e, d) ∈ escapes
        · obtain ⟨d, hd⟩ := he
          exact .inl ⟨d, ['\\', e], cs, rfl, .escape hd⟩
        · exact .inr ⟨['\\', e], cs, rfl, .unknown hx (not_exists.mp he)⟩
  · exact .inl ⟨c, [c], cs, rfl, .plain hc⟩

theorem Spells.ne_nil (h : Spells plain c piece) : piece ≠ [] := by
  cases h <;> exact List.cons_ne_nil _ _

/-- A text is spelled to its end, or up to a first bad sequence. -/
theorem exists_spellsText_or_firstBad (body : List Char) :
    (∃ text, SpellsText (· ≠ '\\') text body) ∨ ∃ sequence, FirstBad body sequence := by
  match body with
  | [] => exact .inl ⟨[], .nil⟩
  | c :: cs =>
    rcases exists_spells_or_bad c cs with ⟨d, piece, rest, heq, hspells⟩ | ⟨sequence, rest, heq, hbad⟩
    · have hshorter : rest.length < cs.length + 1 := by
        have hlength := congrArg List.length heq
        have hpos := List.length_pos_iff.mpr hspells.ne_nil
        simp only [List.length_append, List.length_cons] at hlength
        omega
      rw [heq]
      rcases exists_spellsText_or_firstBad rest with ⟨text, htext⟩ | ⟨sequence, hfirst⟩
      · exact .inl ⟨d :: text, .cons hspells htext⟩
      · obtain ⟨text, before, after, hbefore, rfl, hbad⟩ := hfirst
        refine .inr ⟨sequence, d :: text, piece ++ before, after, .cons hspells hbefore, ?_, hbad⟩
        rw [List.append_assoc]
    · exact .inr ⟨sequence, [], [], rest, .nil, heq, hbad⟩
termination_by body.length

theorem SpellsText.resolveEscapes_eq (h : SpellsText (· ≠ '\\') text body) :
    resolveEscapes body = .ok text := by
  have hresolve := h.resolveEscapes_append []
  rw [List.append_nil] at hresolve
  rw [hresolve]
  simp [resolveEscapes, Functor.map, Except.map]

theorem FirstBad.resolveEscapes_eq {sequence : List Char} (h : FirstBad body sequence) :
    resolveEscapes body = .error (.invalidEscape (String.ofList sequence)) := by
  obtain ⟨text, before, rest, hbefore, rfl, hbad⟩ := h
  rw [hbefore.resolveEscapes_append, hbad.resolveEscapes_append]
  rfl

/-- The text stands between two quotes. -/
def Quoted (quote : Char) (raw : String) (body : List Char) : Prop :=
  raw.toList = quote :: (body ++ [quote])

theorem Quoted.unquote_eq {quote : Char} {raw : String} (h : Quoted quote raw body) :
    unquote quote raw = .ok body := by
  have hraw : raw = String.ofList (quote :: (body ++ [quote])) := by
    rw [← h, String.ofList_toList]
  rw [hraw, Literal.unquote_eq]

theorem unquote_of_not_quoted {quote : Char} {raw : String} (h : ∀ body, ¬Quoted quote raw body) :
    unquote quote raw = .error (.malformedLiteral raw) := by
  unfold unquote
  split
  · next cs hcs =>
    obtain ⟨ds, hfront, hback⟩ := Option.bind_eq_some_iff.mp hcs
    rw [afterFront?_eq_some_iff] at hfront
    rw [beforeBack?_eq_some_iff] at hback
    refine absurd ?_ (h cs)
    rw [Quoted, hfront, hback]
    rfl
  · rfl

theorem decodeString_of_not_quoted {raw : String} (h : ∀ body, ¬Quoted '"' raw body) :
    decodeString raw = .error (.malformedLiteral raw) := by
  rw [decodeString, unquote_of_not_quoted h]
  rfl

theorem Quoted.decodeString_of_ok {raw : String} (h : Quoted '"' raw body)
    (htext : SpellsText (· ≠ '\\') text body) : decodeString raw = .ok (String.ofList text) := by
  simp only [decodeString, h.unquote_eq, bind, Except.bind, htext.resolveEscapes_eq]
  rfl

theorem Quoted.decodeString_of_error {raw : String} {sequence : List Char} (h : Quoted '"' raw body)
    (hfirst : FirstBad body sequence) :
    decodeString raw = .error (.invalidEscape (String.ofList sequence)) := by
  simp only [decodeString, h.unquote_eq, bind, Except.bind, hfirst.resolveEscapes_eq]

theorem decodeChar_of_not_quoted {raw : String} (h : ∀ body, ¬Quoted '\x27' raw body) :
    decodeChar raw = .error (.malformedLiteral raw) := by
  rw [decodeChar, unquote_of_not_quoted h]
  rfl

theorem Quoted.decodeChar_of_ok {raw : String} (h : Quoted '\x27' raw body)
    (htext : SpellsText (· ≠ '\\') [c] body) : decodeChar raw = .ok c := by
  simp only [decodeChar, h.unquote_eq, bind, Except.bind, htext.resolveEscapes_eq]

theorem Quoted.decodeChar_of_length {raw : String} (h : Quoted '\x27' raw body)
    (htext : SpellsText (· ≠ '\\') text body) (hlength : text.length ≠ 1) :
    decodeChar raw = .error (.malformedLiteral raw) := by
  simp only [decodeChar, h.unquote_eq, bind, Except.bind, htext.resolveEscapes_eq]
  rcases text with _ | ⟨c, _ | ⟨d, ds⟩⟩
  · rfl
  · exact absurd rfl hlength
  · rfl

theorem Quoted.decodeChar_of_error {raw : String} {sequence : List Char} (h : Quoted '\x27' raw body)
    (hfirst : FirstBad body sequence) :
    decodeChar raw = .error (.invalidEscape (String.ofList sequence)) := by
  simp only [decodeChar, h.unquote_eq, bind, Except.bind, hfirst.resolveEscapes_eq]

/-- What can be the matter with a quoted literal: it lacks quotes, or it holds a bad sequence; if
neither, it spells a text. -/
theorem quoted_cases (quote : Char) (raw : String) :
    (∀ body, ¬Quoted quote raw body) ∨
      (∃ body sequence, Quoted quote raw body ∧ FirstBad body sequence) ∨
      ∃ body text, Quoted quote raw body ∧ SpellsText (· ≠ '\\') text body := by
  by_cases hquoted : ∃ body, Quoted quote raw body
  · obtain ⟨body, hbody⟩ := hquoted
    rcases exists_spellsText_or_firstBad body with ⟨text, htext⟩ | ⟨sequence, hfirst⟩
    · exact .inr (.inr ⟨body, text, hbody, htext⟩)
    · exact .inr (.inl ⟨body, sequence, hbody, hfirst⟩)
  · exact .inl (not_exists.mp hquoted)

/-- The strings that have a value are the quoted spellings of it. -/
theorem decodeString_eq_ok_iff {raw t : String} : decodeString raw = .ok t ↔
    ∃ body, Quoted '"' raw body ∧ SpellsText (· ≠ '\\') t.toList body := by
  constructor
  · intro h
    rcases quoted_cases '"' raw with hno | ⟨body, sequence, hbody, hfirst⟩ |
      ⟨body, text, hbody, htext⟩
    · rw [decodeString_of_not_quoted hno] at h
      cases h
    · rw [hbody.decodeString_of_error hfirst] at h
      cases h
    · rw [hbody.decodeString_of_ok htext] at h
      cases h
      refine ⟨body, hbody, ?_⟩
      rwa [String.toList_ofList]
  · rintro ⟨body, hbody, htext⟩
    rw [hbody.decodeString_of_ok htext, String.ofList_toList]

/-- A string without a value lacks quotes, or its first bad sequence is blamed. -/
theorem decodeString_eq_error_iff {raw : String} {e : DecodeError} : decodeString raw = .error e ↔
    (∀ body, ¬Quoted '"' raw body) ∧ e = .malformedLiteral raw ∨
    ∃ body sequence, Quoted '"' raw body ∧ FirstBad body sequence ∧
      e = .invalidEscape (String.ofList sequence) := by
  constructor
  · intro h
    rcases quoted_cases '"' raw with hno | ⟨body, sequence, hbody, hfirst⟩ |
      ⟨body, text, hbody, htext⟩
    · rw [decodeString_of_not_quoted hno] at h
      exact .inl ⟨hno, (Except.error.inj h).symm⟩
    · rw [hbody.decodeString_of_error hfirst] at h
      exact .inr ⟨body, sequence, hbody, hfirst, (Except.error.inj h).symm⟩
    · rw [hbody.decodeString_of_ok htext] at h
      cases h
  · rintro (⟨hno, rfl⟩ | ⟨body, sequence, hbody, hfirst, rfl⟩)
    · exact decodeString_of_not_quoted hno
    · exact hbody.decodeString_of_error hfirst

/-- The character literals that have a value are the quoted spellings of it. -/
theorem decodeChar_eq_ok_iff {raw : String} : decodeChar raw = .ok c ↔
    ∃ body, Quoted '\x27' raw body ∧ SpellsText (· ≠ '\\') [c] body := by
  constructor
  · intro h
    rcases quoted_cases '\x27' raw with hno | ⟨body, sequence, hbody, hfirst⟩ |
      ⟨body, text, hbody, htext⟩
    · rw [decodeChar_of_not_quoted hno] at h
      cases h
    · rw [hbody.decodeChar_of_error hfirst] at h
      cases h
    · by_cases hlength : text.length = 1
      · obtain ⟨d, rfl⟩ := List.length_eq_one_iff.mp hlength
        rw [hbody.decodeChar_of_ok htext] at h
        cases h
        exact ⟨body, hbody, htext⟩
      · rw [hbody.decodeChar_of_length htext hlength] at h
        cases h
  · rintro ⟨body, hbody, htext⟩
    exact hbody.decodeChar_of_ok htext

/-- A character literal without a value lacks quotes, or its first bad sequence is blamed, or it
spells more than one character or none. -/
theorem decodeChar_eq_error_iff {raw : String} {e : DecodeError} : decodeChar raw = .error e ↔
    (∀ body, ¬Quoted '\x27' raw body) ∧ e = .malformedLiteral raw ∨
    (∃ body sequence, Quoted '\x27' raw body ∧ FirstBad body sequence ∧
      e = .invalidEscape (String.ofList sequence)) ∨
    ∃ body text, Quoted '\x27' raw body ∧ SpellsText (· ≠ '\\') text body ∧ text.length ≠ 1 ∧
      e = .malformedLiteral raw := by
  constructor
  · intro h
    rcases quoted_cases '\x27' raw with hno | ⟨body, sequence, hbody, hfirst⟩ |
      ⟨body, text, hbody, htext⟩
    · rw [decodeChar_of_not_quoted hno] at h
      exact .inl ⟨hno, (Except.error.inj h).symm⟩
    · rw [hbody.decodeChar_of_error hfirst] at h
      exact .inr (.inl ⟨body, sequence, hbody, hfirst, (Except.error.inj h).symm⟩)
    · by_cases hlength : text.length = 1
      · obtain ⟨d, rfl⟩ := List.length_eq_one_iff.mp hlength
        rw [hbody.decodeChar_of_ok htext] at h
        cases h
      · rw [hbody.decodeChar_of_length htext hlength] at h
        exact .inr (.inr ⟨body, text, hbody, htext, hlength, (Except.error.inj h).symm⟩)
  · rintro (⟨hno, rfl⟩ | ⟨body, sequence, hbody, hfirst, rfl⟩ |
      ⟨body, text, hbody, htext, hlength, rfl⟩)
    · exact decodeChar_of_not_quoted hno
    · exact hbody.decodeChar_of_error hfirst
    · exact hbody.decodeChar_of_length htext hlength

theorem IsDigit.ne_quote {d : Nat} (h : IsDigit 16 c d) : c ≠ '"' ∧ c ≠ '\\' := by
  have hhex := h.isHex
  constructor
  · rintro rfl
    exact absurd hhex (by decide)
  · rintro rfl
    exact absurd hhex (by decide)

/-- A spelled text is for the scanner what may stand in a string. -/
theorem SpellsText.stringBody (h : SpellsText (fun c => c ≠ '\\' ∧ c ≠ '"') text body) :
    Lexeme.StringBody body := by
  induction h with
  | nil => exact .nil
  | cons hc _ ih =>
    cases hc with
    | plain hc => exact .plain hc.2 hc.1 ih
    | escape => exact .escaped ih
    | hex ha hb =>
      apply Lexeme.StringBody.escaped
      apply Lexeme.StringBody.plain ha.ne_quote.1 ha.ne_quote.2
      exact .plain hb.ne_quote.1 hb.ne_quote.2 ih

/-- A spelled character is for the scanner what may stand in a character literal. -/
theorem Spells.quotation (h : Spells (fun c => c ≠ '\\' ∧ c ≠ '\x27' ∧ c ≠ '\n') c piece) :
    Lexeme.Quotation ('\x27' :: (piece ++ ['\x27'])) := by
  cases h with
  | plain hc => exact .inl ⟨c, rfl, hc.2.1, hc.1, hc.2.2⟩
  | @escape e _ he => exact .inr (.inl ⟨e, rfl, (escapes_ne_x _ he).2⟩)
  | hex ha hb => exact .inr (.inr ⟨_, _, rfl, ha.isHex, hb.isHex⟩)

def inQuotes (quote : Char) (body : List Char) : List Char := quote :: (body ++ [quote])

theorem quoted_inQuotes (quote : Char) (body : List Char) :
    Quoted quote (String.ofList (inQuotes quote body)) body := String.toList_ofList

/-- Literals in quotes are read back. However a text is spelled with plain characters and escape
sequences, wherever the scanner stops before the spelling in quotes and whatever follows, it makes
one token of it, and the value of that is the text; and so for single characters. Conversely, what
has a value is such a spelling of it, where more characters are plain than the scanner lets stand
there. If there are not two quotes the literal is malformed, as it is if it spells no single character
and should; else the first bad sequence is blamed. -/
theorem decode_spelled :
    (∀ t body, SpellsText (fun c => c ≠ '\\' ∧ c ≠ '"') t body →
      decodeString (String.ofList (inQuotes '"' body)) = .ok (String.ofList t) ∧
      ∀ (source : String) taken rest, Token.Stops source.toList taken (inQuotes '"' body ++ rest) →
        Token.Emits source taken .string .string (inQuotes '"' body) rest) ∧
    (∀ c piece, Spells (fun c => c ≠ '\\' ∧ c ≠ '\x27' ∧ c ≠ '\n') c piece →
      decodeChar (String.ofList (inQuotes '\x27' piece)) = .ok c ∧
      ∀ (source : String) taken rest, Token.Stops source.toList taken (inQuotes '\x27' piece ++ rest) →
        Token.Emits source taken .char .char (inQuotes '\x27' piece) rest) ∧
    (∀ raw t, decodeString raw = .ok t ↔
      ∃ body, Quoted '"' raw body ∧ SpellsText (· ≠ '\\') t.toList body) ∧
    (∀ raw e, decodeString raw = .error e ↔
      (∀ body, ¬Quoted '"' raw body) ∧ e = .malformedLiteral raw ∨
      ∃ body sequence, Quoted '"' raw body ∧ FirstBad body sequence ∧
        e = .invalidEscape (String.ofList sequence)) ∧
    (∀ raw c, decodeChar raw = .ok c ↔
      ∃ body, Quoted '\x27' raw body ∧ SpellsText (· ≠ '\\') [c] body) ∧
    ∀ raw e, decodeChar raw = .error e ↔
      (∀ body, ¬Quoted '\x27' raw body) ∧ e = .malformedLiteral raw ∨
      (∃ body sequence, Quoted '\x27' raw body ∧ FirstBad body sequence ∧
        e = .invalidEscape (String.ofList sequence)) ∨
      ∃ body text, Quoted '\x27' raw body ∧ SpellsText (· ≠ '\\') text body ∧ text.length ≠ 1 ∧
        e = .malformedLiteral raw := by
  refine ⟨?_, ?_, fun raw t => decodeString_eq_ok_iff, fun raw e => decodeString_eq_error_iff,
    fun raw c => decodeChar_eq_ok_iff, fun raw e => decodeChar_eq_error_iff⟩
  · intro t body h
    have htext : SpellsText (· ≠ '\\') t body := h.mono fun c hc => hc.1
    constructor
    · exact (quoted_inQuotes '"' body).decodeString_of_ok htext
    · intro source taken rest hstops
      have hcandidate : Lexeme.string.Candidate (inQuotes '"' body) rest := ⟨body, rfl, h.stringBody⟩
      exact hstops.emits (by decide) (by decide) hcandidate rfl
  · intro c piece h
    have hchar : Spells (· ≠ '\\') c piece := h.mono fun c hc => hc.1
    constructor
    · exact (quoted_inQuotes '\x27' piece).decodeChar_of_ok hchar.single
    · intro source taken rest hstops
      have hcandidate : Lexeme.char.Candidate (inQuotes '\x27' piece) rest := h.quotation
      exact hstops.emits (by decide) (by decide) hcandidate rfl

/-- A string and a character behind a word: a plain character, a code in mixed case and a line break
in the one, an escaped quote in the other. -/
theorem decode_spelled_behind_word :
    let body := ['a', '\\', 'x', '4', 'a', '\\', 'n']
    (decodeString (String.ofList (inQuotes '"' body)) = .ok "aJ\n" ∧
      Token.Emits "x\"a\\x4a\\n\"y" [(.word, ['x'])] .string .string (inQuotes '"' body) ['y']) ∧
    decodeChar (String.ofList (inQuotes '\x27' ['\\', '\x27'])) = .ok '\x27' ∧
      Token.Emits "'\\''" [] .char .char (inQuotes '\x27' ['\\', '\x27']) [] := by
  intro body
  obtain ⟨hstring, hchar, -⟩ := decode_spelled
  have htext : SpellsText (fun c => c ≠ '\\' ∧ c ≠ '"') ['a', 'J', '\n'] body := by
    have hdigits : IsDigit 16 '4' 4 ∧ IsDigit 16 'a' 10 := by decide
    have hbreak : Spells (fun c => c ≠ '\\' ∧ c ≠ '"') '\n' ['\\', 'n'] := .escape (by decide)
    exact .cons (.plain (by decide)) (.cons (.hex hdigits.1 hdigits.2 (by decide)) hbreak.single)
  have hquote : Spells (fun c => c ≠ '\\' ∧ c ≠ '\x27' ∧ c ≠ '\n') '\x27' ['\\', '\x27'] :=
    .escape (by decide)
  obtain ⟨hvalue, hemits⟩ := hstring _ body htext
  obtain ⟨hvalue', hemits'⟩ := hchar '\x27' _ hquote
  refine ⟨⟨hvalue, hemits _ _ _ ?_⟩, hvalue', hemits' _ _ _ ?_⟩
  · have hword : Lexeme.longest (['x'] ++ (inQuotes '"' body ++ ['y'])) = some (.word, 1) := by
      decide +kernel
    exact .take hword (.here _)
  · exact .here _

end Literal

end FrontEnd
