import FrontEnd.Proofs.Candidate
/-!
# The longest lexeme

At each place at most one class has a longest candidate, so the order in which the classes are tried
does not matter. The winner stays the winner when the source is cut behind it, and a token stays the
winner when a blank is put behind it.
-/
namespace FrontEnd

variable {cs ds text rest : List Char} {l m : Lexeme} {n : Nat}

namespace Lexeme

theorem longestOf_eq_none_iff {ls : List Lexeme} :
    longestOf cs ls = none ↔ ∀ m ∈ ls, m.length cs = 0 := by
  induction ls with
  | nil => simp [longestOf]
  | cons l ls ih =>
    rw [longestOf, List.forall_mem_cons, ← ih]
    split
    · next h => by_cases hl : l.length cs = 0 <;> simp [hl, h]
    · next m n h =>
      rw [h]
      split <;> simp

theorem longestOf_spec {ls : List Lexeme} (h : longestOf cs ls = some (l, n)) :
    l ∈ ls ∧ l.length cs = n ∧ n ≠ 0 ∧ ∀ m ∈ ls, m.length cs ≤ n := by
  induction ls generalizing l n with
  | nil => cases h
  | cons k ls ih =>
    rw [longestOf] at h
    split at h
    · next hnone =>
      have hzero := longestOf_eq_none_iff.mp hnone
      split at h
      · cases h
      · next hk =>
        cases h
        refine ⟨List.mem_cons_self, rfl, hk, ?_⟩
        simpa using fun m hm => (hzero m hm).symm ▸ Nat.zero_le _
    · next k' n' hsome =>
      obtain ⟨hmem, hlength, hpos, hmax⟩ := ih hsome
      split at h
      · next hlt =>
        cases h
        exact ⟨List.mem_cons_of_mem _ hmem, hlength, hpos, by simpa using ⟨Nat.le_of_lt hlt, hmax⟩⟩
      · next hle =>
        cases h
        refine ⟨List.mem_cons_self, rfl, by omega, ?_⟩
        simpa using fun m hm => Nat.le_trans (hmax m hm) (by omega)

/-- A number for the classes that may begin with a character: one class alone, or comments and
operators together. -/
def group (c : Char) : Nat :=
  if Text.isBlank c then 0 else if isWordStart c then 1 else if c.isDigit then 2
  else if c = '\x27' then 3 else if c = '"' then 4 else 5

/-- The number of the characters that a class may begin with. -/
def groupOf : Lexeme → Nat
  | blank => 0
  | word => 1
  | integer => 2
  | char => 3
  | string => 4
  | lineComment | blockComment | operator _ _ => 5

theorem isBlank_of_printable {c : Char} (h : 32 < c.toNat) (h' : c.toNat < 127) :
    Text.isBlank c = false := by
  simp only [Text.isBlank, Bool.or_eq_false_iff, Bool.and_eq_false_iff, decide_eq_false_iff_not]
  omega

theorem isWordPart_printable {c : Char} (h : isWordPart c = true) : 32 < c.toNat ∧ c.toNat < 127 := by
  delta isWordPart Char.isAlphanum Char.isAlpha Char.isUpper Char.isLower at h
  simp only [Char.isDigit, Bool.or_eq_true, Bool.and_eq_true, decide_eq_true_eq, ge_iff_le,
    UInt32.le_iff_toNat_le] at h
  change (((65 ≤ c.toNat ∧ c.toNat ≤ 90) ∨ (97 ≤ c.toNat ∧ c.toNat ≤ 122)) ∨
    (48 ≤ c.toNat ∧ c.toNat ≤ 57)) ∨ c = '_' at h
  rcases h with ((h | h) | h) | rfl
  · omega
  · omega
  · omega
  · decide

theorem isWordPart_of_isWordStart {c : Char} (h : isWordStart c = true) : isWordPart c = true := by
  simp only [isWordStart, isWordPart, Char.isAlphanum, Bool.or_eq_true] at h ⊢
  rcases h with h | h <;> simp [h]

theorem isWordPart_of_isDigit {c : Char} (h : c.isDigit = true) : isWordPart c = true := by
  simp [isWordPart, Char.isAlphanum, h]

theorem isBlank_of_isWordPart {c : Char} (h : isWordPart c = true) : Text.isBlank c = false :=
  isBlank_of_printable (isWordPart_printable h).1 (isWordPart_printable h).2

theorem isWordStart_of_isDigit {c : Char} (h : c.isDigit = true) : isWordStart c = false := by
  have hdigit : 48 ≤ c.toNat ∧ c.toNat ≤ 57 := by
    simpa [Char.isDigit, UInt32.le_iff_toNat_le] using h
  by_contra hstart
  rw [Bool.not_eq_false, isWordStart] at hstart
  delta Char.isAlpha Char.isUpper Char.isLower at hstart
  simp only [Bool.or_eq_true, Bool.and_eq_true, decide_eq_true_eq, ge_iff_le,
    UInt32.le_iff_toNat_le] at hstart
  change ((65 ≤ c.toNat ∧ c.toNat ≤ 90) ∨ (97 ≤ c.toNat ∧ c.toNat ≤ 122)) ∨ c = '_' at hstart
  rcases hstart with (h | h) | rfl
  · omega
  · omega
  · exact absurd hdigit (by decide)

theorem group_operator : ∀ o ∈ TokenKind.operators, o.1.toList.head?.map group = some 5 := by
  decide

/-- A lexeme begins with a character of its class. -/
theorem Candidate.group_eq (hl : l ∈ classes) (h : l.Candidate text rest) :
    text.head?.map group = some l.groupOf := by
  cases l with
  | blank =>
    obtain ⟨hne, hall, -⟩ := h
    obtain ⟨c, text, rfl⟩ := List.exists_cons_of_ne_nil hne
    simp [group, groupOf, hall c List.mem_cons_self]
  | word =>
    obtain ⟨c, cs, rfl, hc, -⟩ := h
    simp [group, groupOf, hc, isBlank_of_isWordPart (isWordPart_of_isWordStart hc)]
  | integer =>
    obtain ⟨digits, suffix, rfl, hdigits, -⟩ := h
    cases hdigits with
    | based => rfl
    | decimal hd =>
      simp [group, groupOf, hd, isBlank_of_isWordPart (isWordPart_of_isDigit hd),
        isWordStart_of_isDigit hd]
  | char => rcases h with ⟨c, rfl, -⟩ | ⟨c, rfl, -⟩ | ⟨a, b, rfl, -⟩ <;> rfl
  | lineComment | blockComment | string =>
    obtain ⟨body, rfl, -⟩ := h
    rfl
  | operator spelling kind =>
    obtain ⟨rfl, -⟩ := h
    have hmem : (spelling, kind) ∈ TokenKind.operators := by simpa [classes] using hl
    exact group_operator _ hmem

theorem operators_lookup : ∀ o ∈ TokenKind.operators, TokenKind.operators.lookup o.1 = some o.2 := by
  decide

/-- No operator begins like a comment. -/
theorem operators_comment :
    ∀ o ∈ TokenKind.operators, ¬['/', '/'] <+: o.1.toList ∧ ¬['/', '*'] <+: o.1.toList := by
  decide

theorem Candidate.not_comment {spelling : String} {kind : TokenKind}
    (hl : operator spelling kind ∈ classes) (h : Candidate l spelling.toList rest) :
    l ≠ lineComment ∧ l ≠ blockComment := by
  have hmem : (spelling, kind) ∈ TokenKind.operators := by simpa [classes] using hl
  obtain ⟨hline, hblock⟩ := operators_comment _ hmem
  constructor
  · rintro rfl
    obtain ⟨body, heq, -⟩ := h
    exact hline (heq ▸ ⟨body, rfl⟩)
  · rintro rfl
    obtain ⟨body, heq, -⟩ := h
    exact hblock (heq ▸ ⟨_, rfl⟩)

/-- Two classes with one candidate are one class. -/
theorem Candidate.unique (hl : l ∈ classes) (hm : m ∈ classes) (h : l.Candidate text rest)
    (h' : m.Candidate text rest) : l = m := by
  have hgroup : l.groupOf = m.groupOf := by
    have heq := (h.group_eq hl).symm.trans (h'.group_eq hm)
    exact Option.some.inj heq
  cases l <;> cases m
  all_goals first | rfl | (simp [groupOf] at hgroup; done) | skip
  case lineComment.blockComment | blockComment.lineComment =>
    obtain ⟨body, rfl, -⟩ := h
    obtain ⟨body', heq, -⟩ := h'
    simp at heq
  case lineComment.operator | blockComment.operator =>
    obtain ⟨rfl, -⟩ := h'
    have hno := h.not_comment hm
    simp at hno
  case operator.lineComment | operator.blockComment =>
    obtain ⟨rfl, -⟩ := h
    have hno := h'.not_comment hl
    simp at hno
  case operator.operator s k s' k' =>
    obtain rfl : s = s' := String.toList_inj.mp (h.1.symm.trans h'.1)
    have hk := operators_lookup (s, k) (by simpa [classes] using hl)
    have hk' := operators_lookup (s, k') (by simpa [classes] using hm)
    obtain rfl : k = k' := Option.some.inj (hk.symm.trans hk')
    rfl

theorem eq_of_length_eq (hl : l ∈ classes) (hm : m ∈ classes) (hpos : l.length cs ≠ 0)
    (h : l.length cs = m.length cs) : l = m := by
  obtain ⟨text, rest, rfl, hcandidate⟩ := exists_candidate hpos
  refine hcandidate.unique hl hm (candidate_iff.mpr ⟨hcandidate.ne_nil, ?_⟩)
  rw [← h, hcandidate.length_eq]

/-- What it is to be the longest lexeme, in whatever order the classes are tried. -/
theorem longestOf_eq_some_iff {ls : List Lexeme} (hls : ∀ m, m ∈ ls ↔ m ∈ classes) :
    longestOf cs ls = some (l, n) ↔
      l ∈ classes ∧ l.length cs = n ∧ n ≠ 0 ∧ ∀ m ∈ classes, m.length cs ≤ n := by
  constructor
  · intro h
    simpa only [hls] using longestOf_spec h
  · rintro ⟨hmem, rfl, hpos, hmax⟩
    cases h : longestOf cs ls with
    | none => exact absurd (longestOf_eq_none_iff.mp h l ((hls l).mpr hmem)) hpos
    | some w =>
      obtain ⟨m, n⟩ := w
      obtain ⟨hm, rfl, -, hmax'⟩ := longestOf_spec h
      rw [hls] at hm
      have heq : l.length cs = m.length cs :=
        Nat.le_antisymm (hmax' l ((hls l).mpr hmem)) (hmax m hm)
      rw [eq_of_length_eq hmem hm hpos heq]

theorem longest_eq_some_iff : longest cs = some (l, n) ↔
    l ∈ classes ∧ l.length cs = n ∧ n ≠ 0 ∧ ∀ m ∈ classes, m.length cs ≤ n :=
  longestOf_eq_some_iff fun _ => .rfl

theorem longestOf_eq_longest {ls : List Lexeme} (hls : ∀ m, m ∈ ls ↔ m ∈ classes) :
    longestOf cs ls = longest cs := by
  refine Option.ext fun w => ?_
  rw [longestOf_eq_some_iff hls, longest_eq_some_iff]

theorem longest_eq_none_iff : longest cs = none ↔ ∀ m ∈ classes, m.length cs = 0 :=
  longestOf_eq_none_iff

/-- Where only one class has lexemes that begin with a character, a candidate of it is the longest. -/
theorem Candidate.longest_eq (hl : l ∈ classes) (hgroup : l.groupOf ≠ 5)
    (h : l.Candidate text rest) : longest (text ++ rest) = some (l, text.length) := by
  have hlength : l.length (text ++ rest) = text.length := h.length_eq
  have hpos : text.length ≠ 0 := by simpa using h.ne_nil
  refine longest_eq_some_iff.mpr ⟨hl, hlength, hpos, fun m hm => ?_⟩
  by_cases hzero : m.length (text ++ rest) = 0
  · omega
  · obtain ⟨text', rest', heq, h'⟩ := exists_candidate hzero
    -- Both candidates begin with the same character, so their classes are one.
    have hhead : text.head? = text'.head? := by
      obtain ⟨c, cs, hc⟩ := List.exists_cons_of_ne_nil h.ne_nil
      obtain ⟨d, ds, hd⟩ := List.exists_cons_of_ne_nil h'.ne_nil
      rw [hc, hd, List.cons_append, List.cons_append] at heq
      rw [hc, hd, (List.cons.inj heq).1]
      rfl
    have hsame : m.groupOf = l.groupOf := by
      have hgroup' := h'.group_eq hm
      rw [← hhead, h.group_eq hl] at hgroup'
      exact (Option.some.inj hgroup').symm
    obtain rfl : m = l := by
      cases l <;> cases m <;> simp_all [groupOf]
    omega

/-- White space is one lexeme, up to what is none. -/
theorem longest_blank (hne : text ≠ []) (hall : ∀ c ∈ text, Text.isBlank c = true)
    (hends : Ends Text.isBlank rest) : longest (text ++ rest) = some (.blank, text.length) :=
  Candidate.longest_eq (by simp [classes]) (by decide) ⟨hne, hall, hends⟩

theorem longest_cut (h : longest (text ++ (cs ++ ds)) = some (l, text.length)) :
    longest (text ++ cs) = some (l, text.length) := by
  obtain ⟨hmem, hlength, hpos, hmax⟩ := longest_eq_some_iff.mp h
  rw [← List.append_assoc] at hlength hmax
  refine longest_eq_some_iff.mpr ⟨hmem, ?_, hpos, fun m hm => ?_⟩
  · rcases length_append l (text ++ cs) ds with hsame | hlonger
    · rw [← hsame, hlength]
    · simp only [hlength, List.length_append] at hlonger
      omega
  · rcases length_append m (text ++ cs) ds with hsame | hlonger
    · exact hsame ▸ hmax m hm
    · have hle := length_le m (text ++ cs)
      have hmax := hmax m hm
      omega

/-- The classes that become tokens. -/
def isToken (l : Lexeme) : Prop := l ≠ blank ∧ l ≠ lineComment ∧ l ≠ blockComment

theorem isWordPart_of_isDecimalPart {c : Char} (h : isDecimalPart c = true) :
    isWordPart c = true := by
  simp only [isDecimalPart, isWordPart, Char.isAlphanum, Bool.or_eq_true] at h ⊢
  rcases h with h | h <;> simp [h]

theorem isBlank_of_isHexPart {c : Char} (h : isHexPart c = true) : Text.isBlank c = false := by
  simp only [isHexPart, isHexDigit, Bool.or_eq_true, Bool.and_eq_true, decide_eq_true_eq,
    Char.le_def, UInt32.le_iff_toNat_le] at h
  rcases h with ((h | ⟨h, h'⟩) | ⟨h, h'⟩) | rfl
  · exact isBlank_of_isWordPart (isWordPart_of_isDigit h)
  · change 97 ≤ c.toNat at h
    change c.toNat ≤ 102 at h'
    exact isBlank_of_printable (by omega) (by omega)
  · change 65 ≤ c.toNat at h
    change c.toNat ≤ 70 at h'
    exact isBlank_of_printable (by omega) (by omega)
  · decide

/-- The text ends here, or a blank stands first. -/
def Spaced (rest : List Char) : Prop := ∀ c ∈ rest.head?, Text.isBlank c = true

theorem Spaced.ends {p : Char → Bool} (hp : ∀ c, p c = true → Text.isBlank c = false)
    (h : Spaced rest) : Ends p rest := by
  intro c hc
  have hblank := h c hc
  by_contra hpart
  simp [hp c (by simpa using hpart)] at hblank

theorem Spaced.ends_basePart {letter : Char} {isPart : Char → Bool}
    (hletter : basePart? letter = some isPart) (h : Spaced rest) : Ends isPart rest := by
  rcases basePart?_eq_some hletter with ⟨-, rfl⟩ | ⟨-, rfl⟩ | ⟨-, rfl⟩
  · exact h.ends fun c hc => isBlank_of_isWordPart (isWordPart_of_isDecimalPart hc)
  · exact h.ends fun c hc => isBlank_of_isWordPart (isWordPart_of_isDecimalPart hc)
  · exact h.ends fun c hc => isBlank_of_isHexPart hc

theorem Digits.spaced {digits suffix : List Char} (h : Digits digits suffix) (hrest : Spaced rest) :
    Digits digits (suffix ++ rest) := by
  have hends {p : Char → Bool} {cs : List Char} (hp : Ends p rest) (h : Ends p cs) :
      Ends p (cs ++ rest) := by
    cases cs with
    | nil => exact hp
    | cons c cs => exact h
  cases h with
  | based hletter hne hall h => exact .based hletter hne hall (hends (hrest.ends_basePart hletter) h)
  | @decimal d ds _ hd hall h hbase =>
    refine .decimal hd hall (hends (hrest.ends fun c hc => ?_) h) fun c isPart more heq hc => ?_
    · exact isBlank_of_isWordPart (isWordPart_of_isDecimalPart hc)
    · rw [← List.append_assoc, ← List.cons_append] at heq
      rcases List.append_eq_cons_iff.mp heq with ⟨hnil, -⟩ | ⟨text, htext, hmore⟩
      · cases hnil
      · rcases List.append_eq_cons_iff.mp hmore.symm with ⟨-, hmore⟩ | ⟨more', rfl, rfl⟩
        · -- The letter of a base is no blank.
          have hblank := hrest c (by simp [hmore])
          rcases basePart?_eq_some hc with ⟨rfl, -⟩ | ⟨rfl, -⟩ | ⟨rfl, -⟩ <;>
            exact absurd hblank (by decide)
        · exact hends (hrest.ends_basePart hc) (hbase c isPart more' htext hc)

theorem TypeSuffix.spaced {suffix : List Char} (h : TypeSuffix suffix []) (hrest : Spaced rest) :
    TypeSuffix suffix rest := by
  refine h.imp_right (And.imp_right fun _ s hs hprefix => ?_)
  have hhead : ∀ s ∈ Literal.integerSuffixes, s.toList.head?.map Text.isBlank = some false := by
    decide
  obtain ⟨c, hc, hblank⟩ := Option.map_eq_some_iff.mp (hhead s hs)
  obtain ⟨more, rfl⟩ := hprefix
  have hc' : c ∈ (s.toList ++ more).head? := by
    rw [List.head?_append, hc]
    rfl
  simp [hrest c hc'] at hblank

/-- A token stays a candidate when a blank is put behind it. -/
theorem Candidate.spaced (hl : l.isToken) (h : l.Candidate text []) (hrest : Spaced rest) :
    l.Candidate text rest := by
  cases l with
  | blank | lineComment | blockComment => simp [isToken] at hl
  | word =>
    obtain ⟨c, cs, htext, hc, hcs, -⟩ := h
    exact ⟨c, cs, htext, hc, hcs, hrest.ends fun c hc => isBlank_of_isWordPart hc⟩
  | integer =>
    obtain ⟨digits, suffix, htext, hdigits, hsuffix⟩ := h
    rw [List.append_nil] at hdigits
    exact ⟨digits, suffix, htext, hdigits.spaced hrest, hsuffix.spaced hrest⟩
  | char | string | operator spelling kind => exact h.of_closed rfl

theorem operators_spaced :
    ∀ o ∈ TokenKind.operators, ∀ c ∈ o.1.toList, Text.isBlank c = false := by
  have hall : ∀ o ∈ TokenKind.operators, (o.1.toList.any Text.isBlank) = false := by
    decide
  exact fun o ho c hc => by simpa using List.any_eq_false.mp (hall o ho) c hc

/-- No operator and blank begin a longer lexeme. -/
theorem Candidate.not_past_operator {spelling : String} {kind : TokenKind} {c : Char}
    (hl : operator spelling kind ∈ classes) (hne : spelling.toList ≠ []) (hm : m ∈ classes)
    (hgroup : m.groupOf = 5) (hblank : Text.isBlank c = true) :
    ¬m.Candidate (spelling.toList ++ c :: ds) rest := by
  have hmem : (spelling, kind) ∈ TokenKind.operators := by simpa [classes] using hl
  -- A comment begins with an operator that is none, or its second character is the blank.
  have hcomment {d : Char} {more : List Char} (hd : d = '/' ∨ d = '*')
      (h : spelling.toList ++ c :: ds = '/' :: d :: more) : False := by
    obtain ⟨e, es, hes⟩ := List.exists_cons_of_ne_nil hne
    rw [hes, List.cons_append] at h
    obtain ⟨rfl, hsecond⟩ := List.cons.inj h
    cases es with
    | nil =>
      obtain ⟨rfl, -⟩ := List.cons.inj hsecond
      rcases hd with rfl | rfl <;> exact absurd hblank (by decide)
    | cons e es =>
      obtain ⟨rfl, -⟩ := List.cons.inj hsecond
      have hno := operators_comment _ hmem
      rw [hes] at hno
      rcases hd with rfl | rfl
      · exact hno.1 ⟨es, rfl⟩
      · exact hno.2 ⟨es, rfl⟩
  intro h
  cases m with
  | blank | word | integer | char | string => simp [groupOf] at hgroup
  | lineComment =>
    obtain ⟨body, htext, -⟩ := h
    exact hcomment (.inl rfl) htext
  | blockComment =>
    obtain ⟨body, htext, -⟩ := h
    exact hcomment (.inr rfl) htext
  | operator spelling' kind' =>
    have hmem' : (spelling', kind') ∈ TokenKind.operators := by simpa [classes] using hm
    have hc : Text.isBlank c = false := operators_spaced _ hmem' c (by simp [← h.1])
    simp [hblank] at hc

/-- A token stays the longest lexeme when a blank is put behind it. -/
theorem longest_spaced (hl : l.isToken) (h : longest text = some (l, text.length))
    (hrest : Spaced rest) : longest (text ++ rest) = some (l, text.length) := by
  obtain ⟨hmem, hlength, hpos, hmax⟩ := longest_eq_some_iff.mp h
  have hne : text ≠ [] := by simpa using hpos
  have hcandidate : l.Candidate text [] := candidate_iff.mpr ⟨hne, by simpa using hlength⟩
  have hspaced : l.length (text ++ rest) = text.length := (hcandidate.spaced hl hrest).length_eq
  refine longest_eq_some_iff.mpr ⟨hmem, hspaced, hpos, fun m hm => ?_⟩
  rcases length_append m text rest with hsame | hlonger
  · exact hsame ▸ hmax m hm
  -- A longer lexeme would be of the same group and have the blank in it.
  · exfalso
    have hm_ne : m.length (text ++ rest) ≠ 0 := by omega
    obtain ⟨text', rest', heq, hcandidate'⟩ := exists_candidate hm_ne
    have hlt : text.length < text'.length := by rwa [heq, hcandidate'.length_eq] at hlonger
    obtain ⟨more, rfl⟩ : text <+: text' :=
      List.prefix_of_prefix_length_le (List.prefix_append text rest) ⟨rest', heq.symm⟩ (by omega)
    rw [List.append_assoc, List.append_cancel_left_eq] at heq
    obtain ⟨c, more, rfl⟩ : ∃ c cs, more = c :: cs := by
      apply List.exists_cons_of_ne_nil
      rintro rfl
      simp at hlt
    have hblank : Text.isBlank c = true := hrest c (by simp [heq])
    have hgroup : m.groupOf = l.groupOf := by
      obtain ⟨d, ds, rfl⟩ := List.exists_cons_of_ne_nil hne
      have hgroup := hcandidate.group_eq hmem
      have hgroup' := hcandidate'.group_eq hm
      exact Option.some.inj (hgroup'.symm.trans hgroup)
    cases l with
    | blank | lineComment | blockComment => simp [isToken] at hl
    | operator spelling kind =>
      obtain ⟨rfl, -⟩ := hcandidate
      exact Candidate.not_past_operator hmem hne hm hgroup hblank hcandidate'
    | word | integer | char | string =>
      cases m <;> simp only [groupOf, reduceCtorEq, Nat.reduceEqDiff] at hgroup
      omega

/-- The kind of a token, read off its text: operators by their table, literals by their first
character, and words. -/
def kindOf (text : String) : TokenKind :=
  (TokenKind.operators.lookup text).getD <|
    match text.toList with
    | '\x27' :: _ => .char
    | '"' :: _ => .string
    | c :: _ => if c.isDigit then .integer else .ofWord text
    | [] => .eof

theorem operators_lookup_eq_none {s : String} {c : Char} (hc : s.toList.head? = some c)
    (hgroup : group c ≠ 5) : TokenKind.operators.lookup s = none := by
  rw [List.lookup_eq_none_iff]
  intro o ho
  by_contra hs
  obtain rfl : s = o.1 := by simpa using hs
  have hgroup' := group_operator o ho
  rw [hc] at hgroup'
  exact hgroup (Option.some.inj hgroup')

/-- What begins like a word has the kind of a word. -/
theorem kindOf_of_isWordStart {s : String} {c : Char} {cs : List Char} (hs : s.toList = c :: cs)
    (hc : isWordStart c = true) : kindOf s = .ofWord s := by
  have hblank : Text.isBlank c = false := isBlank_of_isWordPart (isWordPart_of_isWordStart hc)
  have hlookup : TokenKind.operators.lookup s = none :=
    operators_lookup_eq_none (c := c) (by simp [hs]) (by simp [group, hblank, hc])
  rw [kindOf, hlookup, Option.getD_none, hs]
  split
  · next heq =>
    rw [(List.cons.inj heq).1] at hc
    cases hc
  · next heq =>
    rw [(List.cons.inj heq).1] at hc
    cases hc
  · next heq =>
    rw [← (List.cons.inj heq).1, if_neg]
    exact fun hdigit => by simp [isWordStart_of_isDigit hdigit] at hc
  · next heq => cases heq

theorem Candidate.kind?_eq {k : TokenKind} (hl : l ∈ classes) (h : l.Candidate text rest)
    (hk : l.kind? (String.ofList text) = some k) : k = kindOf (String.ofList text) := by
  have hgroup := h.group_eq hl
  have hlookup (hne : l.groupOf ≠ 5) : TokenKind.operators.lookup (String.ofList text) = none := by
    obtain ⟨c, cs, rfl⟩ := List.exists_cons_of_ne_nil h.ne_nil
    refine operators_lookup_eq_none (c := c) (by simp) ?_
    rwa [Option.some.inj hgroup]
  cases l with
  | blank | lineComment | blockComment => cases hk
  | operator spelling kind =>
    obtain ⟨rfl, -⟩ := h
    have hmem : (spelling, kind) ∈ TokenKind.operators := by simpa [classes] using hl
    cases hk
    simp [kindOf, operators_lookup _ hmem]
  | word =>
    cases hk
    obtain ⟨c, cs, rfl, hc, -⟩ := h
    exact (kindOf_of_isWordStart String.toList_ofList hc).symm
  | integer =>
    cases hk
    obtain ⟨digits, suffix, rfl, hdigits, -⟩ := h
    obtain ⟨d, ds, rfl, hd⟩ : ∃ d ds, digits = d :: ds ∧ d.isDigit = true := by
      cases hdigits with
      | based => exact ⟨_, _, rfl, by decide⟩
      | decimal hd => exact ⟨_, _, rfl, hd⟩
    rw [kindOf, hlookup (by simp [groupOf])]
    simp only [String.toList_ofList, Option.getD_none, List.cons_append]
    split
    · next heq => cases heq; exact absurd hd (by decide)
    · next heq => cases heq; exact absurd hd (by decide)
    · next heq => cases heq; rw [if_pos hd]
    · next heq => cases heq
  | char =>
    cases hk
    obtain ⟨cs, rfl⟩ : ∃ cs, text = '\x27' :: cs := by
      rcases h with ⟨c, rfl, -⟩ | ⟨c, rfl, -⟩ | ⟨a, b, rfl, -⟩ <;> exact ⟨_, rfl⟩
    rw [kindOf, hlookup (by simp [groupOf]), String.toList_ofList]
    rfl
  | string =>
    cases hk
    obtain ⟨body, rfl, -⟩ := h
    rw [kindOf, hlookup (by simp [groupOf]), String.toList_ofList]
    rfl

/-- The kinds that no word and no operator has a spelling of its own for. -/
abbrev unspelt : List TokenKind := [.eof, .identifier, .integer, .char, .string]

theorem reservedWords_kind : ∀ w ∈ TokenKind.reservedWords, w.2 ∉ unspelt := by
  decide

theorem operators_kind : ∀ o ∈ TokenKind.operators, o.2 ∉ unspelt := by
  decide

theorem ofReserved?_kind {w : String} {k : TokenKind} (h : TokenKind.ofReserved? w = some k) :
    k ∉ unspelt := by
  obtain ⟨l₁, l₂, heq, -⟩ := List.lookup_eq_some_iff.mp h
  exact reservedWords_kind (w, k) (by simp [heq])

/-- Which classes have tokens of a kind without a spelling. An identifier is no reserved word. -/
theorem kind?_unspelt {s : String} {k : TokenKind} (hl : l ∈ classes) (hk : l.kind? s = some k)
    (hmem : k ∈ unspelt) :
    l = word ∧ k = .identifier ∧ TokenKind.ofReserved? s = none ∨ l = integer ∧ k = .integer ∨
      l = char ∧ k = .char ∨ l = string ∧ k = .string := by
  cases l with
  | blank | lineComment | blockComment => cases hk
  | integer | char | string =>
    cases hk
    simp
  | word =>
    obtain rfl : TokenKind.ofWord s = k := Option.some.inj hk
    cases h : TokenKind.ofReserved? s with
    | none => exact .inl ⟨rfl, by rw [TokenKind.ofWord, h]; rfl, rfl⟩
    | some k =>
      rw [TokenKind.ofWord, h] at hmem
      exact absurd hmem (ofReserved?_kind h)
  | operator spelling kind =>
    cases hk
    have hentry : (spelling, k) ∈ TokenKind.operators := by simpa [classes] using hl
    exact absurd hmem (operators_kind _ hentry)

/-- No lexeme becomes the mark at the end, and an identifier is no reserved word. -/
theorem kind?_spec {s : String} {k : TokenKind} (hl : l ∈ classes) (hk : l.kind? s = some k) :
    k ≠ .eof ∧ (k = .identifier → TokenKind.ofReserved? s = none) := by
  have hcases := kind?_unspelt hl hk
  constructor
  · rintro rfl
    simp at hcases
  · rintro rfl
    simp only [reduceCtorEq, and_false, or_false, true_and, List.mem_cons, true_or, or_true,
      forall_const] at hcases
    exact hcases.2

theorem operators_spelling : ∀ o ∈ TokenKind.operators, o.2.spelling? = some o.1 := by
  decide

theorem reservedWords_spelling : ∀ w ∈ TokenKind.reservedWords, w.2.spelling? = some w.1 := by
  decide

/-- A token whose kind has one spelling is spelt so. -/
theorem kind?_spelling {s w : String} {k : TokenKind} (hl : l ∈ classes)
    (h : l.Candidate s.toList rest) (hk : l.kind? s = some k) (hw : k.spelling? = some w) : s = w := by
  cases l with
  | blank | lineComment | blockComment => cases hk
  | integer | char | string =>
    cases hk
    cases hw
  | word =>
    cases hk
    cases hreserved : TokenKind.ofReserved? s with
    | none =>
      rw [TokenKind.ofWord, hreserved] at hw
      cases hw
    | some k =>
      obtain ⟨l₁, l₂, heq, -⟩ := List.lookup_eq_some_iff.mp hreserved
      rw [TokenKind.ofWord, hreserved] at hw
      have hspelling := reservedWords_spelling (s, k) (by simp [heq])
      exact Option.some.inj (hspelling.symm.trans hw)
  | operator spelling kind =>
    cases hk
    have hmem : (spelling, k) ∈ TokenKind.operators := by simpa [classes] using hl
    have hspelling := operators_spelling _ hmem
    rw [String.toList_injective h.1]
    exact Option.some.inj (hspelling.symm.trans hw)

theorem kind?_isSome_iff {s : String} : (l.kind? s).isSome = true ↔ l.isToken := by
  cases l <;> simp [kind?, isToken]

end Lexeme

end FrontEnd
