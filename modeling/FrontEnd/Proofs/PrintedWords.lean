import FrontEnd.Proofs.Scanning
import FrontEnd.Proofs.SexprReading
import FrontEnd.Proofs.SexprText
/-!
# Words are read back

The text of a scanned token tells its kind, so the token is read back from the word that is printed for
it but for its place. A path is read back from its words: none of them has a colon in it.
-/
namespace FrontEnd

open Lexeme (Candidate kindOf)
open Grammar (pathSegments)

/-- Characters are plain if no blank, parenthesis or quote is one of them. -/
theorem isPlain_of {p : Char → Bool} (hp : [' ', '(', ')', '"', '\x27'].any p = false) {c : Char}
    (h : p c = true) : isPlain c = true := by
  rw [isPlain, decide_eq_true_eq]
  exact fun hc => List.any_eq_false.mp hp c hc h

theorem isPlain_of_isWordPart {c : Char} (h : Lexeme.isWordPart c = true) : isPlain c = true :=
  isPlain_of (by decide) h

namespace Lexeme

theorem Candidate.integer_plain {text rest : List Char} (h : integer.Candidate text rest) :
    text ≠ [] ∧ ∀ c ∈ text, isPlain c = true := by
  refine ⟨h.ne_nil, ?_⟩
  obtain ⟨digits, suffix, rfl, hdigits, hsuffix⟩ := h
  refine List.forall_mem_append.mpr ⟨?_, ?_⟩
  · cases hdigits with
    | @based letter isPart ds _ hletter hne hds =>
      have hparts : isPlain letter = true ∧ [' ', '(', ')', '"', '\x27'].any isPart = false := by
        unfold basePart? at hletter
        split at hletter <;> cases hletter <;> exact ⟨by decide, by decide⟩
      refine List.forall_mem_cons.mpr ⟨by decide, List.forall_mem_cons.mpr ⟨hparts.1, ?_⟩⟩
      exact fun c hc => isPlain_of hparts.2 (hds c hc)
    | decimal hd hds =>
      refine List.forall_mem_cons.mpr ⟨isPlain_of (p := Char.isDigit) (by decide) hd, ?_⟩
      exact fun c hc => isPlain_of (p := isDecimalPart) (by decide) (hds c hc)
  · rcases hsuffix with ⟨s, hs, rfl⟩ | ⟨rfl, -⟩
    · have hplain : ∀ s ∈ Literal.integerSuffixes, s.toList.all isPlain = true := by decide
      exact List.all_eq_true.mp (hplain s hs)
    · exact nofun

end Lexeme

/-- A token whose text is a lexeme of its kind. -/
def Token.Spelt (t : Token) : Prop :=
  ∃ l ∈ Lexeme.classes, l.Candidate t.value.toList [] ∧ l.kind? t.value = some t.kind

namespace Token

variable {t : Token}

theorem spelt_of_scan {source file : String} {tokens : List Token} (h : scan source file = .ok tokens) :
    ∀ t ∈ tokens, t.kind ≠ .eof → t.Spelt := by
  intro t ht heof
  obtain ⟨l, before, after, -, hl, hcandidate, hkind⟩ := exists_lexeme_of_scan h ht heof
  exact ⟨l, hl, Lexeme.Candidate.cut hcandidate, hkind⟩

namespace Spelt

theorem kindOf_eq (h : t.Spelt) : kindOf t.value = t.kind := by
  obtain ⟨l, hl, hcandidate, hkind⟩ := h
  rw [← String.ofList_toList (s := t.value)] at hkind ⊢
  exact (hcandidate.kind?_eq hl hkind).symm

/-- The token is read back from its text. -/
theorem ofText_eq (h : t.Spelt) : ofText t.value = t.bare := by
  rw [ofText, h.kindOf_eq]
  rfl

/-- The one spelling of a kind is the text of its tokens. -/
theorem value_eq (h : t.Spelt) {w : String} (hw : t.kind.spelling? = some w) : t.value = w := by
  obtain ⟨l, hl, hcandidate, hkind⟩ := h
  exact Lexeme.kind?_spelling hl hcandidate hkind hw

/-- A word of a path is letters, digits and underscores. -/
theorem pathSegment (h : t.Spelt) (hk : t.kind ∈ pathSegments) :
    ∃ c cs, t.value.toList = c :: cs ∧ Lexeme.isWordStart c = true ∧
      ∀ c ∈ cs, Lexeme.isWordPart c = true := by
  obtain ⟨l, hl, hcandidate, hkind⟩ := h
  cases l with
  | word =>
    obtain ⟨c, cs, heq, hc, hcs, -⟩ := hcandidate
    exact ⟨c, cs, heq, hc, hcs⟩
  | blank | lineComment | blockComment => cases hkind
  | integer | char | string =>
    rw [← Option.some.inj hkind] at hk
    exact absurd hk (by decide)
  | operator spelling kind =>
    have hmem : (spelling, kind) ∈ TokenKind.operators := by simpa [Lexeme.classes] using hl
    rw [← Option.some.inj hkind] at hk
    have hno : ∀ o ∈ TokenKind.operators, o.2 ∉ pathSegments := by decide
    exact absurd hk (hno _ hmem)

/-- The text of a token that is no parenthesis can stand as a word. -/
theorem isWord (h : t.Spelt) (hk : t.kind ∉ [TokenKind.openParen, .closeParen]) :
    IsWord t.value.toList := by
  obtain ⟨l, hl, hcandidate, hkind⟩ := h
  cases l with
  | word =>
    obtain ⟨c, cs, heq, hc, hcs, -⟩ := hcandidate
    have hc := isPlain_of_isWordPart (Lexeme.isWordPart_of_isWordStart hc)
    rw [heq]
    exact .plain (by simp) (List.forall_mem_cons.mpr ⟨hc, fun c hc => isPlain_of_isWordPart (hcs c hc)⟩)
  | blank | lineComment | blockComment => cases hkind
  | integer =>
    obtain ⟨hne, hplain⟩ := hcandidate.integer_plain
    exact .plain hne hplain
  | char => exact .char hcandidate
  | string =>
    obtain ⟨body, heq, hbody⟩ := hcandidate
    rw [heq]
    exact .string hbody
  | operator spelling kind =>
    have hmem : (spelling, kind) ∈ TokenKind.operators := by simpa [Lexeme.classes] using hl
    obtain ⟨heq, hne⟩ := hcandidate
    rw [← Option.some.inj hkind] at hk
    have hplain : ∀ o ∈ TokenKind.operators, o.2 ∉ [TokenKind.openParen, .closeParen] →
        o.1.toList.all isPlain = true := by decide
    exact .plain hne (heq ▸ List.all_eq_true.mp (hplain _ hmem hk))

theorem integer_plain (h : t.Spelt) (hk : t.kind = .integer) :
    t.value.toList ≠ [] ∧ ∀ c ∈ t.value.toList, isPlain c = true := by
  obtain ⟨l, hl, hcandidate, hkind⟩ := h
  have hunspelt := Lexeme.kind?_unspelt hl hkind (by simp [hk])
  obtain rfl : l = .integer := by simpa [hk] using hunspelt
  exact hcandidate.integer_plain

/-- Only an operator begins with a minus sign. -/
theorem head?_ne_dash (h : t.Spelt) (hk : ∀ o ∈ TokenKind.operators, o.2 ≠ t.kind) :
    t.value.toList.head? ≠ some '-' := by
  obtain ⟨l, hl, hcandidate, hkind⟩ := h
  have hgroup := hcandidate.group_eq hl
  intro hdash
  rw [hdash] at hgroup
  cases l with
  | operator spelling kind =>
    have hmem : (spelling, kind) ∈ TokenKind.operators := by simpa [Lexeme.classes] using hl
    exact hk _ hmem (Option.some.inj hkind)
  | blank | lineComment | blockComment => cases hkind
  | word | integer | char | string => exact absurd (Option.some.inj hgroup) (by decide)

end Spelt

end Token

structure Path.Spelt (p : Path) : Prop where
  ne_nil : p.segments ≠ []
  segments : ∀ t ∈ p.segments, t.Spelt ∧ t.kind ∈ pathSegments

/-- Words without colons are what stands between two and two colons. -/
theorem splitOnP_intercalate_colons {words : List (List Char)}
    (h : ∀ w ∈ words, w ≠ [] ∧ ∀ c ∈ w, decide (c = ':') = false) :
    (([':', ':'].intercalate words).splitOnP (· = ':')).filter (· ≠ []) = words := by
  induction words with
  | nil => rfl
  | cons w words ih =>
    obtain ⟨⟨hne, hw⟩, hwords⟩ := List.forall_mem_cons.mp h
    cases words with
    | nil => simp [List.splitOnP_eq_singleton hw, hne]
    | cons v words =>
      have hcolons : w ++ [':', ':'] ++ [':', ':'].intercalate (v :: words) =
          w ++ ':' :: ([] ++ ':' :: [':', ':'].intercalate (v :: words)) := by simp
      rw [List.intercalate_cons_cons, hcolons, List.splitOnP_append_cons_of_forall_mem hw _ rfl,
        List.splitOnP_append_cons_of_forall_mem nofun _ rfl]
      simpa [hne] using ih hwords

/-- Behind the first of some words with colons between them come colons and the other words. -/
theorem exists_intercalate_colons (w : List Char) (words : List (List Char)) :
    ∃ rest, [':', ':'].intercalate (w :: words) = w ++ rest ∧ (words ≠ [] → ':' ∈ rest) ∧
      ∀ c ∈ rest, c = ':' ∨ ∃ v ∈ words, c ∈ v := by
  induction words generalizing w with
  | nil => exact ⟨[], by simp, by simp, nofun⟩
  | cons v words ih =>
    obtain ⟨rest, heq, -, hrest⟩ := ih v
    refine ⟨':' :: ':' :: (v ++ rest), ?_, fun _ => by simp, ?_⟩
    · rw [List.intercalate_cons_cons, heq]
      simp
    · simp only [List.forall_mem_cons, true_or, true_and]
      intro c hc
      rcases List.mem_append.mp hc with hc | hc
      · exact .inr ⟨v, List.mem_cons_self, hc⟩
      · exact (hrest c hc).imp_right fun ⟨u, hu, hc⟩ => ⟨u, List.mem_cons_of_mem _ hu, hc⟩

namespace Path.Spelt

variable {p : Path}

theorem toList_text (p : Path) :
    p.text.toList = [':', ':'].intercalate (p.segments.map (·.value.toList)) := by
  simp [Path.text, String.toList_intercalate, Function.comp_def]

/-- One word is a path. -/
theorem ofToken {t : Token} (h : t.Spelt) (hk : t.kind ∈ pathSegments) : (Path.ofToken t).Spelt :=
  ⟨List.cons_ne_nil _ _, List.forall_mem_singleton.mpr ⟨h, hk⟩⟩

/-- The path is read back from its text. -/
theorem ofText_eq (h : p.Spelt) : ofText p.text = p.bare := by
  have hwords : ∀ w ∈ p.segments.map (·.value.toList), w ≠ [] ∧ ∀ c ∈ w, decide (c = ':') = false := by
    rw [List.forall_mem_map]
    intro t ht
    obtain ⟨ht, hk⟩ := h.segments t ht
    obtain ⟨c, cs, heq, hc, hcs⟩ := ht.pathSegment hk
    rw [heq]
    refine ⟨by simp, List.forall_mem_cons.mpr ⟨?_, fun c hc => ?_⟩⟩
    · rw [decide_eq_false_iff_not]
      rintro rfl
      exact absurd hc (by decide)
    · rw [decide_eq_false_iff_not]
      rintro rfl
      exact absurd (hcs _ hc) (by decide)
  rw [ofText, toList_text, splitOnP_intercalate_colons hwords, Path.bare, List.map_map]
  congr 1
  refine List.map_congr_left fun t ht => ?_
  rw [Function.comp_apply, String.ofList_toList]
  exact (h.segments t ht).1.ofText_eq

/-- The text of a path is a word of one token, or a longer word with colons in it. -/
theorem cases_text (h : p.Spelt) :
    (∃ t, p.segments = [t] ∧ t.Spelt ∧ t.kind ∈ pathSegments) ∨
    ∃ c cs, p.text.toList = c :: cs ∧ Lexeme.isWordStart c = true ∧ ':' ∈ cs ∧
      ∀ c ∈ cs, isPlain c = true := by
  obtain ⟨hne, hsegments⟩ := h
  obtain ⟨t, ts, heq⟩ := List.exists_cons_of_ne_nil hne
  rw [heq] at hsegments
  cases ts with
  | nil => exact .inl ⟨t, heq, hsegments t List.mem_cons_self⟩
  | cons u ts =>
    obtain ⟨rest, htext, hcolon, hrest⟩ :=
      exists_intercalate_colons t.value.toList ((u :: ts).map (·.value.toList))
    obtain ⟨ht, hk⟩ := hsegments t List.mem_cons_self
    obtain ⟨c, cs, ht, hc, hcs⟩ := ht.pathSegment hk
    right
    refine ⟨c, cs ++ rest, ?_, hc, by simp [hcolon], fun d hd => ?_⟩
    · rw [toList_text, heq, List.map_cons, htext, ht, List.cons_append]
    · rcases List.mem_append.mp hd with hd | hd
      · exact isPlain_of_isWordPart (hcs d hd)
      · rcases hrest d hd with rfl | ⟨w, hw, hd⟩
        · rfl
        · obtain ⟨v, hv, rfl⟩ := List.mem_map.mp hw
          obtain ⟨hv, hk⟩ := hsegments v (List.mem_cons_of_mem _ hv)
          obtain ⟨c, cs, hv, hc, hcs⟩ := hv.pathSegment hk
          rw [hv] at hd
          rcases List.mem_cons.mp hd with rfl | hd
          · exact isPlain_of_isWordPart (Lexeme.isWordPart_of_isWordStart hc)
          · exact isPlain_of_isWordPart (hcs d hd)

theorem text_singleton {t : Token} (h : p.segments = [t]) : p.text = t.value := by
  rw [Path.text, h]
  simp

/-- A path begins like a word. -/
theorem exists_cons (h : p.Spelt) : ∃ c cs, p.text.toList = c :: cs ∧ Lexeme.isWordStart c = true := by
  rcases h.cases_text with ⟨t, heq, ht, hk⟩ | ⟨c, cs, heq, hc, -⟩
  · obtain ⟨c, cs, ht, hc, -⟩ := ht.pathSegment hk
    exact ⟨c, cs, by rw [text_singleton heq, ht], hc⟩
  · exact ⟨c, cs, heq, hc⟩

theorem head?_ne_dash (h : p.Spelt) : p.text.toList.head? ≠ some '-' := by
  obtain ⟨c, cs, heq, hc⟩ := h.exists_cons
  rw [heq, List.head?_cons]
  rintro ⟨⟩
  cases hc

theorem isWord (h : p.Spelt) : IsWord p.text.toList := by
  rcases h.cases_text with ⟨t, heq, ht, hk⟩ | ⟨c, cs, heq, hc, -, hcs⟩
  · rw [text_singleton heq]
    exact ht.isWord (by revert hk; generalize t.kind = k; revert k; decide)
  · have hc := isPlain_of_isWordPart (Lexeme.isWordPart_of_isWordStart hc)
    rw [heq]
    exact .plain (by simp) (List.forall_mem_cons.mpr ⟨hc, hcs⟩)

/-- A path reads like a word of one. -/
theorem kindOf_text (h : p.Spelt) : kindOf p.text ∈ pathSegments := by
  rcases h.cases_text with ⟨t, heq, ht, hk⟩ | ⟨c, cs, heq, hc, hcolon, -⟩
  · rwa [text_singleton heq, ht.kindOf_eq]
  · have hunreserved : TokenKind.ofReserved? p.text = none := by
      rw [Option.eq_none_iff_forall_ne_some]
      intro k hk
      obtain ⟨l₁, l₂, hreserved, -⟩ := List.lookup_eq_some_iff.mp hk
      have hcolons : ∀ w ∈ TokenKind.reservedWords, ':' ∉ w.1.toList := by decide
      exact hcolons (p.text, k) (by simp [hreserved]) (by simp [heq, hcolon])
    rw [Lexeme.kindOf_of_isWordStart heq hc, TokenKind.ofWord, hunreserved]
    exact List.mem_cons_self

end Path.Spelt

end FrontEnd
