import FrontEnd.Literal
import FrontEnd.Token.Scan
import Mathlib.Tactic.ByContra
/-!
# What a lexeme of each class looks like

A candidate of a class is described by its text and by what may follow it. The scanner counts
characters instead; the two agree, and cutting the source behind a lexeme does not change it.
-/
namespace FrontEnd

/-- The text does not begin with a character that passes the test. -/
def Ends (p : Char → Bool) (rest : List Char) : Prop := ∀ c ∈ rest.head?, p c = false

variable {p : Char → Bool} {text rest cs ds : List Char}

@[simp] theorem runLength_nil : runLength p [] = 0 := rfl

@[simp] theorem runLength_cons (c : Char) :
    runLength p (c :: cs) = if p c then runLength p cs + 1 else 0 := by
  unfold runLength
  split <;> simp_all

/-- A run is as long as some text exactly if the text passes and what follows does not. -/
theorem runLength_eq_iff :
    runLength p (text ++ rest) = text.length ↔ (∀ c ∈ text, p c = true) ∧ Ends p rest := by
  induction text with
  | nil => cases rest <;> simp [Ends]
  | cons c text ih => by_cases hc : p c = true <;> simp [hc, ih]

theorem Ends.cut (h : Ends p (cs ++ ds)) : Ends p cs := by
  cases cs with
  | nil => exact nofun
  | cons c cs => exact h

theorem exists_run (p : Char → Bool) (cs : List Char) :
    ∃ text rest, cs = text ++ rest ∧ (∀ c ∈ text, p c = true) ∧ Ends p rest ∧
      runLength p cs = text.length := by
  have hsplit : cs = cs.takeWhile p ++ cs.dropWhile p := List.takeWhile_append_dropWhile.symm
  have hlength : runLength p (cs.takeWhile p ++ cs.dropWhile p) = (cs.takeWhile p).length := by
    rw [← hsplit]
    rfl
  obtain ⟨hall, hends⟩ := runLength_eq_iff.mp hlength
  exact ⟨_, _, hsplit, hall, hends, rfl⟩

namespace Lexeme

/-- The digits that may follow a zero and the letter of a base. -/
def basePart? : Char → Option (Char → Bool)
  | 'b' => some isDecimalPart
  | 'o' => some isDecimalPart
  | 'x' => some isHexPart
  | _ => none

/-- Digits of an integer before `rest`, as many as there are: with a base, if a digit follows its
letter, else decimal. -/
inductive Digits : (digits rest : List Char) → Prop
  | based {letter : Char} {isPart : Char → Bool} {ds rest : List Char} :
    basePart? letter = some isPart → ds ≠ [] → (∀ c ∈ ds, isPart c = true) → Ends isPart rest →
    Digits ('0' :: letter :: ds) rest
  | decimal {d : Char} {ds rest : List Char} :
    d.isDigit = true → (∀ c ∈ ds, isDecimalPart c = true) → Ends isDecimalPart rest →
    (∀ letter isPart more, d :: (ds ++ rest) = '0' :: letter :: more →
      basePart? letter = some isPart → Ends isPart more) →
    Digits (d :: ds) rest

/-- The type suffix of an integer before `rest`, empty only if none of the suffixes stands there. -/
def TypeSuffix (suffix rest : List Char) : Prop :=
  (∃ s ∈ Literal.integerSuffixes, suffix = s.toList) ∨
    suffix = [] ∧ ∀ s ∈ Literal.integerSuffixes, ¬s.toList <+: rest

/-- Text between the quotes of a string: no quote stands in it and no backslash at its end but after
another backslash. -/
inductive StringBody : List Char → Prop
  | nil : StringBody []
  | plain {c : Char} {body : List Char} : c ≠ '"' → c ≠ '\\' → StringBody body →
    StringBody (c :: body)
  | escaped {c : Char} {body : List Char} : StringBody body → StringBody ('\\' :: c :: body)

def Quotation (text : List Char) : Prop :=
  (∃ c, text = ['\x27', c, '\x27'] ∧ c ≠ '\x27' ∧ c ≠ '\\' ∧ c ≠ '\n') ∨
  (∃ c, text = ['\x27', '\\', c, '\x27'] ∧ c ≠ '\n') ∨
  ∃ a b, text = ['\x27', '\\', 'x', a, b, '\x27'] ∧ isHexDigit a = true ∧ isHexDigit b = true

/-- The lexemes that a class has to offer at a place: `text` stands there and `rest` follows. -/
def Candidate : Lexeme → (text rest : List Char) → Prop
  | blank, text, rest =>
    text ≠ [] ∧ (∀ c ∈ text, Text.isBlank c = true) ∧ Ends Text.isBlank rest
  | lineComment, text, rest =>
    ∃ body, text = '/' :: '/' :: body ∧ (∀ c ∈ body, c ≠ '\n') ∧ Ends (· ≠ '\n') rest
  | blockComment, text, _ =>
    ∃ body, text = '/' :: '*' :: body ++ ['*', '/'] ∧ ¬['*', '/'] <:+: body ++ ['*']
  | word, text, rest =>
    ∃ c cs, text = c :: cs ∧ isWordStart c = true ∧ (∀ c ∈ cs, isWordPart c = true) ∧
      Ends isWordPart rest
  | integer, text, rest =>
    ∃ digits suffix, text = digits ++ suffix ∧ Digits digits (suffix ++ rest) ∧
      TypeSuffix suffix rest
  | char, text, _ => Quotation text
  | string, text, _ => ∃ body, text = '"' :: body ++ ['"'] ∧ StringBody body
  | operator spelling _, text, _ => text = spelling.toList ∧ text ≠ []

theorem throughCommentEnd_append (hfirst : ¬['*', '/'] <:+: cs ++ ['*']) :
    throughCommentEnd (cs ++ '*' :: '/' :: rest) = some (cs.length + 2) := by
  induction cs with
  | nil => rfl
  | cons c cs ih =>
    have htail : ¬['*', '/'] <:+: cs ++ ['*'] := fun h => hfirst (h.trans (List.suffix_cons _ _).isInfix)
    have hends : ∃ d ds, cs ++ '*' :: '/' :: rest = d :: ds ∧ ¬(c = '*' ∧ d = '/') := by
      cases cs with
      | nil => exact ⟨_, _, rfl, by simp⟩
      | cons d cs =>
        refine ⟨_, _, rfl, ?_⟩
        rintro ⟨rfl, rfl⟩
        exact hfirst ⟨[], cs ++ ['*'], rfl⟩
    obtain ⟨d, ds, hds, hne⟩ := hends
    rw [hds] at ih
    rw [List.cons_append, hds, throughCommentEnd, if_neg hne, ih htail]
    rfl

theorem exists_commentEnd {n : Nat} (h : throughCommentEnd cs = some n) :
    ∃ body rest, cs = body ++ '*' :: '/' :: rest ∧ ¬['*', '/'] <:+: body ++ ['*'] ∧
      n = body.length + 2 := by
  induction cs generalizing n with
  | nil => simp [throughCommentEnd] at h
  | cons c cs ih =>
    cases cs with
    | nil => simp [throughCommentEnd] at h
    | cons d cs =>
      rw [throughCommentEnd] at h
      by_cases hends : c = '*' ∧ d = '/'
      · obtain ⟨rfl, rfl⟩ := hends
        simp only [and_self, if_true, Option.some.injEq] at h
        exact ⟨[], cs, rfl, by decide, h.symm⟩
      · rw [if_neg hends] at h
        obtain ⟨m, hm, rfl⟩ := Option.map_eq_some_iff.mp h
        obtain ⟨body, rest, hbody, hfirst, rfl⟩ := ih hm
        refine ⟨c :: body, rest, by rw [hbody]; rfl, ?_, rfl⟩
        intro hinfix
        rcases List.infix_cons_iff.mp hinfix with hprefix | hinfix
        · obtain ⟨rfl, hsecond⟩ := List.cons_prefix_cons.mp hprefix
          cases body with
          | nil => simp at hsecond
          | cons e body =>
            have hnext : '/' = e := (List.cons_prefix_cons.mp hsecond).1
            exact hends ⟨rfl, (List.cons.inj hbody).1.trans hnext.symm⟩
        · exact hfirst hinfix

theorem basePart?_eq_some {c : Char} {isPart : Char → Bool} (h : basePart? c = some isPart) :
    c = 'b' ∧ isPart = isDecimalPart ∨ c = 'o' ∧ isPart = isDecimalPart ∨
      c = 'x' ∧ isPart = isHexPart := by
  unfold basePart? at h
  split at h <;> simp_all

theorem digitsLength_base {c : Char} {isPart : Char → Bool} (h : basePart? c = some isPart) :
    digitsLength ('0' :: c :: cs) = basedLength isPart cs := by
  rcases basePart?_eq_some h with ⟨rfl, rfl⟩ | ⟨rfl, rfl⟩ | ⟨rfl, rfl⟩ <;> rfl

theorem digitsLength_decimal {d : Char} (h : ∀ c isPart more, d :: cs = '0' :: c :: more →
    basePart? c = some isPart → False) :
    digitsLength (d :: cs) = if d.isDigit then 1 + runLength isDecimalPart cs else 0 := by
  unfold digitsLength
  split
  · next heq => exact (h _ _ _ heq rfl).elim
  · next heq => exact (h _ _ _ heq rfl).elim
  · next heq => exact (h _ _ _ heq rfl).elim
  · next heq => cases heq; rfl
  · next heq => cases heq

theorem digitsLength_eq_zero_iff {d : Char} :
    digitsLength (d :: cs) = 0 ↔ d.isDigit = false := by
  by_cases hbase : ∃ c isPart more, d :: cs = '0' :: c :: more ∧ basePart? c = some isPart
  · obtain ⟨c, isPart, more, heq, hc⟩ := hbase
    obtain ⟨rfl, rfl⟩ := List.cons.inj heq
    have hpos : digitsLength ('0' :: c :: more) ≠ 0 := by
      rw [digitsLength_base hc, basedLength]
      split <;> omega
    simp [hpos]
  · rw [digitsLength_decimal fun c isPart more heq hc => hbase ⟨c, isPart, more, heq, hc⟩]
    cases d.isDigit <;> simp

theorem Digits.length_eq {digits : List Char} (h : Digits digits rest) :
    digitsLength (digits ++ rest) = digits.length := by
  cases h with
  | based hletter hne hall hends =>
    have hrun := runLength_eq_iff.mpr ⟨hall, hends⟩
    simp only [List.cons_append, digitsLength_base hletter, basedLength, hrun, List.length_eq_zero_iff,
      hne, if_false, List.length_cons]
    omega
  | @decimal d ds _ hd hall hends hbase =>
    by_cases hletter : ∃ c isPart more, d :: (ds ++ rest) = '0' :: c :: more ∧ basePart? c = some isPart
    · obtain ⟨c, isPart, more, heq, hc⟩ := hletter
      have hrun : runLength isPart more = 0 := by
        have hempty : runLength isPart ([] ++ more) = [].length :=
          runLength_eq_iff.mpr ⟨nofun, hbase _ _ _ heq hc⟩
        exact hempty
      -- The letter of a base is no decimal digit, so there is none but the zero.
      have hds : ds = [] := by
        cases ds with
        | nil => rfl
        | cons e ds =>
          obtain ⟨-, heq⟩ := List.cons.inj heq
          obtain ⟨rfl, -⟩ := List.cons.inj heq
          have hpart := hall e List.mem_cons_self
          rcases basePart?_eq_some hc with ⟨rfl, -⟩ | ⟨rfl, -⟩ | ⟨rfl, -⟩ <;>
            exact absurd hpart (by decide)
      rw [List.cons_append, heq, digitsLength_base hc, basedLength, if_pos hrun, hds]
      rfl
    · have hrun := runLength_eq_iff.mpr ⟨hall, hends⟩
      rw [List.cons_append, digitsLength_decimal fun c isPart more heq hc =>
        hletter ⟨c, isPart, more, heq, hc⟩, hd, hrun]
      simp [Nat.add_comm]

theorem exists_digits (h : digitsLength cs ≠ 0) :
    ∃ digits rest, cs = digits ++ rest ∧ Digits digits rest := by
  cases cs with
  | nil => exact absurd rfl h
  | cons d cs =>
    have hd : d.isDigit = true := by simpa [digitsLength_eq_zero_iff] using h
    by_cases hbase : ∃ c isPart more, d :: cs = '0' :: c :: more ∧ basePart? c = some isPart ∧
        ¬Ends isPart more
    · obtain ⟨c, isPart, more, heq, hc, hmore⟩ := hbase
      obtain ⟨ds, rest, rfl, hall, hends, -⟩ := exists_run isPart more
      refine ⟨'0' :: c :: ds, rest, heq, .based hc ?_ hall hends⟩
      rintro rfl
      exact hmore hends
    · obtain ⟨ds, rest, rfl, hall, hends, -⟩ := exists_run isDecimalPart cs
      refine ⟨d :: ds, rest, rfl, .decimal hd hall hends ?_⟩
      intro c isPart more heq hc
      by_contra hmore
      exact hbase ⟨c, isPart, more, heq, hc, hmore⟩

theorem Digits.cut {digits : List Char} (h : Digits digits (cs ++ ds)) : Digits digits cs := by
  cases h with
  | based hletter hne hall hends => exact .based hletter hne hall hends.cut
  | decimal hd hall hends hbase =>
    refine .decimal hd hall hends.cut fun c isPart more heq hc => ?_
    refine (hbase c isPart (more ++ ds) ?_ hc).cut
    rw [← List.append_assoc, ← List.cons_append, heq]
    rfl

def typeSuffixLength : List Char → Nat
  | 'i' :: cs => suffixLength cs
  | 'u' :: cs => suffixLength cs
  | _ => 0

theorem integerLength_eq (h : digitsLength cs ≠ 0) :
    integerLength cs = digitsLength cs + typeSuffixLength (cs.drop (digitsLength cs)) := by
  unfold integerLength typeSuffixLength
  simp only [h, if_false]
  split <;> simp_all

theorem typeSuffixLength_append {s : String} (h : s ∈ Literal.integerSuffixes) :
    typeSuffixLength (s.toList ++ rest) = s.toList.length := by
  simp only [Literal.integerSuffixes, List.mem_cons, List.not_mem_nil, or_false] at h
  rcases h with rfl | rfl | rfl | rfl | rfl | rfl | rfl | rfl | rfl | rfl | rfl | rfl <;> rfl

theorem exists_width (h : suffixLength cs ≠ 0) :
    ∃ w ∈ ["8", "16", "32", "64", "128", "size"], w.toList <+: cs := by
  unfold suffixLength at h
  split at h
  · exact ⟨"8", by decide, _, rfl⟩
  · exact ⟨"16", by decide, _, rfl⟩
  · exact ⟨"32", by decide, _, rfl⟩
  · exact ⟨"64", by decide, _, rfl⟩
  · exact ⟨"128", by decide, _, rfl⟩
  · exact ⟨"size", by decide, _, rfl⟩
  · exact absurd rfl h

theorem exists_typeSuffix (h : typeSuffixLength cs ≠ 0) :
    ∃ s ∈ Literal.integerSuffixes, s.toList <+: cs := by
  have hmem : ∀ w ∈ ["8", "16", "32", "64", "128", "size"],
      "i" ++ w ∈ Literal.integerSuffixes ∧ "u" ++ w ∈ Literal.integerSuffixes := by decide
  unfold typeSuffixLength at h
  split at h
  · obtain ⟨w, hw, rest, rfl⟩ := exists_width h
    exact ⟨"i" ++ w, (hmem w hw).1, rest, by simp⟩
  · obtain ⟨w, hw, rest, rfl⟩ := exists_width h
    exact ⟨"u" ++ w, (hmem w hw).2, rest, by simp⟩
  · exact absurd rfl h

theorem TypeSuffix.length_eq {suffix : List Char} (h : TypeSuffix suffix rest) :
    typeSuffixLength (suffix ++ rest) = suffix.length := by
  rcases h with ⟨s, hs, rfl⟩ | ⟨rfl, hnone⟩
  · exact typeSuffixLength_append hs
  · by_contra hne
    obtain ⟨s, hs, hprefix⟩ := exists_typeSuffix hne
    exact hnone s hs hprefix

theorem exists_typeSuffix_append (cs : List Char) :
    ∃ suffix rest, cs = suffix ++ rest ∧ TypeSuffix suffix rest := by
  by_cases h : ∃ s ∈ Literal.integerSuffixes, s.toList <+: cs
  · obtain ⟨s, hs, rest, rfl⟩ := h
    exact ⟨_, rest, rfl, .inl ⟨s, hs, rfl⟩⟩
  · exact ⟨[], cs, rfl, .inr ⟨rfl, fun s hs hprefix => h ⟨s, hs, hprefix⟩⟩⟩

theorem TypeSuffix.cut {suffix : List Char} (h : TypeSuffix suffix (cs ++ ds)) :
    TypeSuffix suffix cs := by
  refine h.imp_right (And.imp_right fun hnone s hs hprefix => hnone s hs ?_)
  exact hprefix.trans (List.prefix_append _ _)

theorem Quotation.length_eq (h : Quotation text) : charLength (text ++ rest) = text.length := by
  rcases h with ⟨c, rfl, hquote, hslash, hnewline⟩ | ⟨c, rfl, hnewline⟩ | ⟨a, b, rfl, ha, hb⟩
  · simp only [List.cons_append, List.nil_append]
    unfold charLength
    split <;> simp_all
  · simp only [List.cons_append, List.nil_append]
    unfold charLength
    split
    · next a b _ heq =>
      simp only [List.cons.injEq, true_and] at heq
      obtain ⟨-, rfl, -⟩ := heq
      simp [isHexDigit]
    · simp_all
    · next c _ _ hshape heq =>
      simp only [List.cons.injEq, true_and] at heq
      obtain ⟨rfl, rfl, rfl⟩ := heq
      exact (hshape _ rfl rfl).elim
    · simp_all
  · simp [charLength, ha, hb]

theorem exists_quotation (h : charLength cs ≠ 0) : ∃ text rest, cs = text ++ rest ∧ Quotation text := by
  unfold charLength at h
  split at h
  · next a b rest =>
    by_cases hhex : isHexDigit a && isHexDigit b
    · obtain ⟨ha, hb⟩ := Bool.and_eq_true_iff.mp hhex
      exact ⟨_, rest, rfl, .inr (.inr ⟨a, b, rfl, ha, hb⟩)⟩
    · have ha : a = '\x27' := by
        by_contra ha
        simp [hhex, ha] at h
      subst ha
      exact ⟨['\x27', '\\', 'x', '\x27'], _, rfl, .inr (.inl ⟨'x', rfl, by decide⟩)⟩
  · next c rest _ => exact ⟨_, rest, rfl, .inr (.inl ⟨c, rfl, by rintro rfl; simp at h⟩)⟩
  · next c rest _ =>
    have hc : c ≠ '\x27' ∧ c ≠ '\\' ∧ c ≠ '\n' := by
      refine ⟨?_, ?_, ?_⟩ <;> rintro rfl <;> simp at h
    exact ⟨_, rest, rfl, .inl ⟨c, rfl, hc⟩⟩
  · exact absurd rfl h

theorem StringBody.throughQuote_eq {body : List Char} (h : StringBody body) :
    throughQuote (body ++ '"' :: rest) = some (body.length + 1) := by
  induction h with
  | nil => rfl
  | @plain c body hquote hslash h ih =>
    rw [List.cons_append, throughQuote, if_neg hquote, ih]
    · rfl
    · rintro rfl
      exact absurd rfl hslash
    · rintro _ _ rfl
      exact absurd rfl hslash
  | escaped h ih =>
    rw [List.cons_append, List.cons_append, throughQuote, ih]
    rfl

theorem exists_stringBody {n : Nat} (h : throughQuote cs = some n) :
    ∃ body rest, cs = body ++ '"' :: rest ∧ StringBody body := by
  fun_induction throughQuote cs generalizing n with
  | case1 => simp at h
  | case2 => simp at h
  | case3 c cs ih =>
    obtain ⟨m, hm, -⟩ := Option.map_eq_some_iff.mp h
    obtain ⟨body, rest, rfl, hbody⟩ := ih hm
    exact ⟨'\\' :: c :: body, rest, rfl, hbody.escaped⟩
  | case4 cs => exact ⟨[], cs, rfl, .nil⟩
  | case5 c cs hend hslash hquote ih =>
    obtain ⟨m, hm, -⟩ := Option.map_eq_some_iff.mp h
    obtain ⟨body, rest, rfl, hbody⟩ := ih hm
    refine ⟨c :: body, rest, rfl, .plain hquote ?_ hbody⟩
    rintro rfl
    cases body <;> exact hslash _ _ rfl rfl

theorem Candidate.ne_nil {l : Lexeme} (h : l.Candidate text rest) : text ≠ [] := by
  cases l with
  | blank => exact h.1
  | operator spelling kind => exact h.2
  | integer =>
    obtain ⟨digits, suffix, rfl, hdigits, -⟩ := h
    cases hdigits <;> simp
  | char => rcases h with ⟨c, rfl, -⟩ | ⟨c, rfl, -⟩ | ⟨a, b, rfl, -⟩ <;> simp
  | lineComment | blockComment | string =>
    obtain ⟨body, rfl, -⟩ := h
    simp
  | word =>
    obtain ⟨c, cs, rfl, -⟩ := h
    simp

/-- Cutting what follows a candidate leaves it one. -/
theorem Candidate.cut {l : Lexeme} (h : l.Candidate text (cs ++ ds)) : l.Candidate text cs := by
  cases l with
  | blank => exact ⟨h.1, h.2.1, h.2.2.cut⟩
  | lineComment =>
    obtain ⟨body, htext, hbody, hends⟩ := h
    exact ⟨body, htext, hbody, hends.cut⟩
  | word =>
    obtain ⟨c, cs, htext, hc, hcs, hends⟩ := h
    exact ⟨c, cs, htext, hc, hcs, hends.cut⟩
  | integer =>
    obtain ⟨digits, suffix, htext, hdigits, hsuffix⟩ := h
    rw [← List.append_assoc] at hdigits
    exact ⟨digits, suffix, htext, hdigits.cut, hsuffix.cut⟩
  | blockComment | char | string | operator spelling kind => exact h

/-- The classes whose lexemes end at a character of their own, whatever follows. -/
def closed : Lexeme → Bool
  | blank | lineComment | word | integer => false
  | blockComment | char | string | operator _ _ => true

theorem Candidate.of_closed {l : Lexeme} (hl : l.closed = true) (h : l.Candidate text rest) :
    l.Candidate text ds := by
  cases l with
  | blank | lineComment | word | integer => cases hl
  | blockComment | char | string | operator spelling kind => exact h

theorem Candidate.length_eq {l : Lexeme} (h : l.Candidate text rest) :
    l.length (text ++ rest) = text.length := by
  cases l with
  | blank => exact runLength_eq_iff.mpr h.2
  | lineComment =>
    obtain ⟨body, rfl, hbody, hends⟩ := h
    have hrun : runLength (· ≠ '\n') (body ++ rest) = body.length :=
      runLength_eq_iff.mpr ⟨by simpa using hbody, hends⟩
    simp only [length, List.cons_append, lineCommentLength, hrun, List.length_cons]
    omega
  | blockComment =>
    obtain ⟨body, rfl, hfirst⟩ := h
    simp only [length, List.cons_append, List.append_assoc, blockCommentLength, List.nil_append,
      throughCommentEnd_append hfirst]
    simp
    omega
  | word =>
    obtain ⟨c, cs, rfl, hc, hcs, hends⟩ := h
    simp only [length, List.cons_append, wordLength, hc, if_true,
      runLength_eq_iff.mpr ⟨hcs, hends⟩, List.length_cons]
    omega
  | integer =>
    obtain ⟨digits, suffix, rfl, hdigits, hsuffix⟩ := h
    have hlength := hdigits.length_eq
    have hne : digitsLength (digits ++ (suffix ++ rest)) ≠ 0 := by
      rw [hlength]
      cases hdigits <;> simp
    rw [length, List.append_assoc, integerLength_eq hne, hlength, List.drop_left, hsuffix.length_eq,
      List.length_append]
  | char => exact Quotation.length_eq h
  | string =>
    obtain ⟨body, rfl, hbody⟩ := h
    simp only [length, List.cons_append, List.append_assoc, stringLength, List.nil_append,
      hbody.throughQuote_eq]
    simp
    omega
  | operator spelling kind =>
    obtain ⟨rfl, -⟩ := h
    simp [length, String.length_toList]

/-- Where the scanner counts a character, there is a candidate. -/
theorem exists_candidate {l : Lexeme} (h : l.length cs ≠ 0) :
    ∃ text rest, cs = text ++ rest ∧ l.Candidate text rest := by
  cases l with
  | blank =>
    obtain ⟨text, rest, rfl, hall, hends, hlength⟩ := exists_run Text.isBlank cs
    refine ⟨text, rest, rfl, ?_, hall, hends⟩
    rintro rfl
    exact h hlength
  | lineComment =>
    rw [length] at h
    unfold lineCommentLength at h
    split at h
    · next cs =>
      obtain ⟨body, rest, rfl, hall, hends, -⟩ := exists_run (· ≠ '\n') cs
      exact ⟨'/' :: '/' :: body, rest, rfl, body, rfl, by simpa using hall, hends⟩
    · exact absurd rfl h
  | blockComment =>
    rw [length] at h
    unfold blockCommentLength at h
    split at h
    · next cs =>
      cases hn : throughCommentEnd cs with
      | none => simp [hn] at h
      | some n =>
        obtain ⟨body, rest, rfl, hfirst, -⟩ := exists_commentEnd hn
        exact ⟨'/' :: '*' :: body ++ ['*', '/'], rest, by simp, body, rfl, hfirst⟩
    · exact absurd rfl h
  | word =>
    rw [length] at h
    cases cs with
    | nil => exact absurd rfl h
    | cons c cs =>
      have hc : isWordStart c = true := by
        by_contra hc
        simp [wordLength, hc] at h
      obtain ⟨text, rest, rfl, hall, hends, -⟩ := exists_run isWordPart cs
      exact ⟨c :: text, rest, rfl, c, text, rfl, hc, hall, hends⟩
  | integer =>
    have hpos : digitsLength cs ≠ 0 := by
      intro hzero
      rw [length] at h
      unfold integerLength at h
      simp only [hzero, if_true] at h
      split at h <;> simp at h
    obtain ⟨digits, rest, rfl, hdigits⟩ := exists_digits hpos
    obtain ⟨suffix, rest, rfl, hsuffix⟩ := exists_typeSuffix_append rest
    exact ⟨digits ++ suffix, rest, by simp, digits, suffix, rfl, hdigits, hsuffix⟩
  | char => exact exists_quotation h
  | string =>
    rw [length] at h
    unfold stringLength at h
    split at h
    · next cs =>
      cases hn : throughQuote cs with
      | none => simp [hn] at h
      | some n =>
        obtain ⟨body, rest, rfl, hbody⟩ := exists_stringBody hn
        exact ⟨'"' :: body ++ ['"'], rest, by simp, body, rfl, hbody⟩
    · exact absurd rfl h
  | operator spelling kind =>
    rw [length] at h
    split at h
    · next hprefix =>
      obtain ⟨rest, rfl⟩ := List.isPrefixOf_iff_prefix.mp hprefix
      refine ⟨_, rest, rfl, rfl, ?_⟩
      intro hnil
      exact h (by rw [← String.length_toList, hnil]; rfl)
    · exact absurd rfl h

/-- The scanner counts the characters of the candidates that a class has to offer. -/
theorem candidate_iff {l : Lexeme} :
    l.Candidate text rest ↔ text ≠ [] ∧ l.length (text ++ rest) = text.length := by
  constructor
  · intro h
    exact ⟨h.ne_nil, h.length_eq⟩
  · rintro ⟨hne, hlength⟩
    have hpos : l.length (text ++ rest) ≠ 0 := by simpa [hlength] using hne
    obtain ⟨text', rest', heq, h⟩ := exists_candidate hpos
    have hlength' : text.length = text'.length := by rw [← hlength, heq, h.length_eq]
    obtain ⟨rfl, rfl⟩ := List.append_inj heq hlength'
    exact h

theorem length_le (l : Lexeme) (cs : List Char) : l.length cs ≤ cs.length := by
  by_cases h : l.length cs = 0
  · omega
  · obtain ⟨text, rest, rfl, hcandidate⟩ := exists_candidate h
    simp [hcandidate.length_eq]

/-- A class that has a candidate keeps having one when text is added. -/
theorem length_append_ne_zero {l : Lexeme} (h : l.length cs ≠ 0) : l.length (cs ++ ds) ≠ 0 := by
  obtain ⟨text, rest, rfl, hcandidate⟩ := exists_candidate h
  rw [List.append_assoc]
  cases l with
  | blank =>
    obtain ⟨hne, hall, -⟩ := hcandidate
    obtain ⟨c, text, rfl⟩ := List.exists_cons_of_ne_nil hne
    simp [length, hall c List.mem_cons_self]
  | lineComment =>
    obtain ⟨body, rfl, -⟩ := hcandidate
    simp [length, lineCommentLength]
  | word =>
    obtain ⟨c, cs, rfl, hc, -⟩ := hcandidate
    simp [length, wordLength, hc]
  | integer =>
    obtain ⟨digits, suffix, rfl, hdigits, -⟩ := hcandidate
    have hpos : digitsLength (digits ++ (suffix ++ (rest ++ ds))) ≠ 0 := by
      cases hdigits with
      | based => simp [digitsLength_eq_zero_iff]
      | decimal hd => simp [digitsLength_eq_zero_iff, hd]
    rw [length, List.append_assoc, integerLength_eq hpos]
    omega
  | blockComment | char | string | operator spelling kind =>
    rw [(hcandidate.of_closed rfl).length_eq]
    simpa using hcandidate.ne_nil

/-- A lexeme that ends within a text is not changed by cutting what follows the text. -/
theorem length_append (l : Lexeme) (cs ds : List Char) :
    l.length (cs ++ ds) = l.length cs ∨ cs.length < l.length (cs ++ ds) := by
  by_cases hlt : cs.length < l.length (cs ++ ds)
  · exact .inr hlt
  · left
    by_cases hzero : l.length (cs ++ ds) = 0
    · by_contra hne
      have hpos : l.length cs ≠ 0 := fun h => hne (hzero.trans h.symm)
      exact length_append_ne_zero hpos hzero
    · obtain ⟨text, rest, heq, hcandidate⟩ := exists_candidate hzero
      have hlength : l.length (cs ++ ds) = text.length := by rw [heq, hcandidate.length_eq]
      obtain ⟨mid, rfl⟩ : text <+: cs :=
        List.prefix_of_prefix_length_le ⟨rest, heq.symm⟩ (List.prefix_append cs ds) (by omega)
      obtain rfl : mid ++ ds = rest := by
        rw [List.append_assoc] at heq
        exact List.append_cancel_left heq
      rw [hlength, hcandidate.cut.length_eq]

/-- A lexeme that no beginning of what follows makes longer is a candidate there. -/
theorem Candidate.of_maximal {l : Lexeme} (h : l.Candidate text [])
    (hmax : ∀ more, more ≠ [] → more <+: rest → ¬l.Candidate (text ++ more) []) :
    l.Candidate text rest := by
  have halone : l.length text = text.length := by
    have hlength := h.length_eq
    rwa [List.append_nil] at hlength
  rcases length_append l text rest with hsame | hlonger
  · exact candidate_iff.mpr ⟨h.ne_nil, hsame.trans halone⟩
  · obtain ⟨text', rest', heq, h'⟩ := exists_candidate (Nat.ne_of_gt (Nat.zero_lt_of_lt hlonger))
    rw [heq, h'.length_eq] at hlonger
    obtain ⟨more, rfl⟩ : text <+: text' :=
      List.prefix_of_prefix_length_le ⟨rest, heq⟩ (List.prefix_append text' rest') (by omega)
    have hne : more ≠ [] := by
      rintro rfl
      simp at hlonger
    have hmore : more <+: rest := by
      rw [List.append_assoc] at heq
      exact ⟨rest', (List.append_cancel_left heq).symm⟩
    have hlong : l.Candidate (text ++ more) ([] ++ rest') := h'
    exact absurd hlong.cut (hmax more hne hmore)

end Lexeme

end FrontEnd
