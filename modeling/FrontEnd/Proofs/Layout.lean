import FrontEnd.Proofs.Placeless
import FrontEnd.Proofs.Scanning
/-!
# Layout

Between two tokens there may be any white space: a source with the same tokens in another layout is
scanned to the same tokens but for their places, and so it is read alike.
-/
namespace FrontEnd

open Lexeme (longest classes Candidate Spaced)

/-- White space, or nothing. -/
def Text.IsWhite (s : String) : Prop := ∀ c ∈ s.toList, Text.isBlank c = true

/-- Words in their order, with a gap after each but the last. -/
def Token.spread (gap : Nat → String) : List String → String
  | [] => ""
  | [word] => word
  | word :: next :: words => word ++ gap 0 ++ Token.spread (fun i => gap (i + 1)) (next :: words)

namespace Token

variable {text rest gap : List Char} {l : Lexeme} {taken : List (Lexeme × List Char)}

/-- The kinds and texts of the tokens among some lexemes. -/
def wordsOf (taken : List (Lexeme × List Char)) : List Token :=
  taken.filterMap fun (l, text) =>
    (l.kind? (String.ofList text)).map fun kind => ⟨kind, String.ofList text, .nowhere⟩

theorem wordsOf_cons (x : Lexeme × List Char) (taken : List (Lexeme × List Char)) :
    wordsOf (x :: taken) = wordsOf [x] ++ wordsOf taken := by
  rw [wordsOf, wordsOf, wordsOf, ← List.filterMap_append]
  rfl

theorem bare_tokensOf (file : String) (offset : Nat) (taken : List (Lexeme × List Char)) :
    (tokensOf file offset taken).map Token.bare = wordsOf taken := by
  induction taken generalizing offset with
  | nil => rfl
  | cons x taken ih =>
    obtain ⟨l, text⟩ := x
    have hhead : (ofLexeme? file offset l text).toList.map Token.bare = wordsOf [(l, text)] := by
      simp only [ofLexeme?, wordsOf, List.filterMap_cons, List.filterMap_nil]
      cases l.kind? (String.ofList text) <;> rfl
    rw [tokensOf, List.map_append, ih, hhead, ← wordsOf_cons]

/-- White space before what is none adds no tokens. -/
theorem stops_gap (hgap : ∀ c ∈ gap, Text.isBlank c = true) (hends : Ends Text.isBlank rest)
    (h : Stops rest taken []) :
    ∃ taken', Stops (gap ++ rest) taken' [] ∧ wordsOf taken' = wordsOf taken := by
  by_cases hne : gap = []
  · subst hne
    exact ⟨taken, h, rfl⟩
  · exact ⟨_, .take (Lexeme.longest_blank hne hgap hends) h, rfl⟩

/-- White space at the end adds no tokens. -/
theorem stops_lastGap (hgap : ∀ c ∈ gap, Text.isBlank c = true) :
    ∃ taken, Stops gap taken [] ∧ wordsOf taken = wordsOf [] := by
  have hends : Ends Text.isBlank [] := nofun
  simpa using stops_gap hgap hends (.here [])

def IsWord (x : Lexeme × List Char) : Prop :=
  x.1.isToken ∧ longest x.2 = some (x.1, x.2.length)

theorem IsWord.ends_blank {x : Lexeme × List Char} (h : IsWord x) (rest : List Char) :
    Ends Text.isBlank (x.2 ++ rest) := by
  obtain ⟨l, text⟩ := x
  obtain ⟨⟨hblank, -, -⟩, hlongest⟩ := h
  have hlongest : longest (text ++ []) = some (l, text.length) := by rwa [List.append_nil]
  obtain ⟨hmem, hcandidate⟩ := longest_candidate hlongest
  obtain ⟨c, cs, rfl⟩ := List.exists_cons_of_ne_nil hcandidate.ne_nil
  have hgroup := hcandidate.group_eq hmem
  rintro _ ⟨⟩
  by_contra hc
  have hc : Text.isBlank c = true := by simpa using hc
  cases l <;> simp [Lexeme.group, Lexeme.groupOf, hc] at hgroup hblank

/-- The tokens among the lexemes of a source are words. -/
theorem Stops.isWord {cs rest : List Char} (h : Stops cs taken rest) :
    ∀ x ∈ taken, x.1.isToken → IsWord x := by
  induction h with
  | here cs => simp
  | @take l text cs rest taken hl hs ih =>
    rw [List.forall_mem_cons]
    have hself : longest (text ++ []) = some (l, text.length) := Lexeme.longest_cut hl
    rw [List.append_nil] at hself
    exact ⟨fun htoken => ⟨htoken, hself⟩, ih⟩

def texts (taken : List (Lexeme × List Char)) : List String := taken.map fun x => String.ofList x.2

theorem spread_cons (gap : Nat → String) (x : Lexeme × List Char) (words : List (Lexeme × List Char)) :
    ∃ rest, (spread gap (texts (x :: words))).toList = x.2 ++ rest := by
  cases words with
  | nil => exact ⟨[], by simp [texts, spread]⟩
  | cons y words =>
    refine ⟨(gap 0).toList ++ (spread (fun i => gap (i + 1)) (texts (y :: words))).toList, ?_⟩
    simp [texts, spread]

theorem stops_spread {words : List (Lexeme × List Char)} (hwords : ∀ x ∈ words, IsWord x)
    {gap : Nat → String} (hgap : ∀ i, gap i ≠ "" ∧ Text.IsWhite (gap i)) {after : List Char}
    (hafter : ∀ c ∈ after, Text.isBlank c = true) :
    ∃ taken, Stops ((spread gap (texts words)).toList ++ after) taken [] ∧
      wordsOf taken = wordsOf words := by
  induction words generalizing gap with
  | nil =>
    simpa [texts, spread] using stops_lastGap hafter
  | cons x words ih =>
    rw [List.forall_mem_cons] at hwords
    obtain ⟨⟨htoken, hlongest⟩, hwords⟩ := hwords
    -- what comes after the word is nothing or white space, and then the words after it
    have take_word {rest : List Char} {taken : List (Lexeme × List Char)} (hrest : Spaced rest)
        (hs : Stops rest taken []) (htaken : wordsOf taken = wordsOf words) :
        ∃ taken, Stops (x.2 ++ rest) taken [] ∧ wordsOf taken = wordsOf (x :: words) :=
      ⟨x :: taken, .take (Lexeme.longest_spaced htoken hlongest hrest) hs, by
        rw [wordsOf_cons, htaken, ← wordsOf_cons]⟩
    cases words with
    | nil =>
      obtain ⟨taken, hs, htaken⟩ := stops_lastGap hafter
      have hspaced : Spaced after := fun c hc => hafter c (List.mem_of_mem_head? hc)
      simpa [texts, spread] using take_word hspaced hs htaken
    | cons y words =>
      obtain ⟨hne, hwhite⟩ := hgap 0
      obtain ⟨taken, hs, htaken⟩ := ih hwords fun i => hgap (i + 1)
      obtain ⟨rest, hrest⟩ := spread_cons (fun i => gap (i + 1)) y words
      have hends : Ends Text.isBlank ((spread (fun i => gap (i + 1)) (texts (y :: words))).toList ++ after) := by
        rw [hrest, List.append_assoc]
        exact (hwords y List.mem_cons_self).ends_blank _
      obtain ⟨taken', hs', htaken'⟩ := stops_gap hwhite hends hs
      have hspaced : Spaced ((gap 0).toList ++
          ((spread (fun i => gap (i + 1)) (texts (y :: words))).toList ++ after)) := by
        obtain ⟨c, cs, hcs⟩ := List.exists_cons_of_ne_nil (mt String.toList_eq_nil_iff.mp hne)
        rw [hcs]
        rintro _ ⟨⟩
        exact hwhite c (hcs ▸ List.mem_cons_self)
      simpa [texts, spread] using take_word hspaced hs' (htaken'.trans htaken)

def words (taken : List (Lexeme × List Char)) : List (Lexeme × List Char) :=
  taken.filter fun x => (x.1.kind? (String.ofList x.2)).isSome

theorem wordsOf_words (taken : List (Lexeme × List Char)) : wordsOf (words taken) = wordsOf taken := by
  induction taken with
  | nil => rfl
  | cons x taken ih =>
    rw [wordsOf_cons, ← ih]
    cases h : x.1.kind? (String.ofList x.2) <;> simp [words, wordsOf, h]

theorem texts_words (taken : List (Lexeme × List Char)) :
    texts (words taken) = (wordsOf taken).map Token.value := by
  induction taken with
  | nil => rfl
  | cons x taken ih =>
    rw [wordsOf_cons, List.map_append, ← ih]
    cases h : x.1.kind? (String.ofList x.2) <;> simp [words, wordsOf, texts, h]

theorem scan_spread {source file : String} {tokens : List Token} (h : scan source file = .ok tokens)
    {gap : Nat → String} (hgap : ∀ i, gap i ≠ "" ∧ Text.IsWhite (gap i)) {before after : String}
    (hbefore : Text.IsWhite before) (hafter : Text.IsWhite after) :
    ∃ tokens', scan (before ++ spread gap (tokens.dropLast.map Token.value) ++ after) file =
      .ok tokens' ∧ tokens'.map Token.bare = tokens.map Token.bare := by
  obtain ⟨taken, hs, rfl⟩ := exists_stops_of_scan h
  have hwords : ∀ x ∈ words taken, IsWord x := fun x hx =>
    hs.isWord x (List.mem_filter.mp hx).1 (Lexeme.kind?_isSome_iff.mp (List.mem_filter.mp hx).2)
  have hvalues : (tokensOf file 0 taken).map Token.value = texts (words taken) := by
    rw [texts_words, ← bare_tokensOf file 0, List.map_map]
    rfl
  have hstops : ∃ taken', Stops (before.toList ++
      ((spread gap (texts (words taken))).toList ++ after.toList)) taken' [] ∧
        wordsOf taken' = wordsOf taken := by
    rw [← wordsOf_words taken]
    cases hw : words taken with
    | nil =>
      have hgap : ∀ c ∈ before.toList ++ after.toList, Text.isBlank c = true := fun c hc =>
        (List.mem_append.mp hc).elim (hbefore c) (hafter c)
      simpa [texts, spread] using stops_lastGap hgap
    | cons x ws =>
      obtain ⟨rest, hrest⟩ := spread_cons gap x ws
      obtain ⟨taken', hs', htaken'⟩ := stops_spread (hw ▸ hwords) hgap hafter
      have hends : Ends Text.isBlank ((spread gap (texts (x :: ws))).toList ++ after.toList) := by
        rw [hrest, List.append_assoc]
        exact (hwords x (hw ▸ List.mem_cons_self)).ends_blank _
      obtain ⟨taken'', hs'', htaken''⟩ := stops_gap hbefore hends hs'
      exact ⟨taken'', hs'', htaken''.trans htaken'⟩
  obtain ⟨taken', hs', htaken'⟩ := hstops
  rw [List.dropLast_concat, hvalues]
  refine ⟨_, Stops.scan_eq (by simpa using hs') file, ?_⟩
  rw [List.map_append, List.map_append, bare_tokensOf, bare_tokensOf, htaken']
  rfl

end Token

theorem parseSource_of_ok {source file : String} {tokens : List Token} {c : Crate} {s : ParseState}
    (h : Token.scan source file = .ok tokens) (hc : parse tokens file = .ok c s) :
    parseSource source file = .ok c := by
  rw [parseSource, h]
  simp only [bind, Except.bind, hc]
  rfl

theorem parseSource_of_error {source file : String} {tokens : List Token} {e : SyntaxError}
    {s : ParseState} (h : Token.scan source file = .ok tokens)
    (he : parse tokens file = .error e s) : parseSource source file = .error e := by
  rw [parseSource, h]
  simp only [bind, Except.bind, he]
  rfl

/-- A source whose tokens are written in another layout, with any white space between each two and
perhaps before the first and after the last, has the same tokens but for their places, and is read to
the same tree but for spans, or is refused for the same cause. -/
theorem parseSource_layout {source file : String} {tokens : List Token}
    (h : Token.scan source file = .ok tokens) {gap : Nat → String}
    (hgap : ∀ i, gap i ≠ "" ∧ Text.IsWhite (gap i)) {before after : String}
    (hbefore : Text.IsWhite before) (hafter : Text.IsWhite after) :
    let source' := before ++ Token.spread gap (tokens.dropLast.map Token.value) ++ after
    (∃ tokens', Token.scan source' file = .ok tokens' ∧
      tokens'.map Token.bare = tokens.map Token.bare) ∧
    ((∃ c c', parseSource source file = .ok c ∧ parseSource source' file = .ok c' ∧
        c.bare = c'.bare) ∨
      (∃ e e', parseSource source file = .error e ∧ parseSource source' file = .error e' ∧
        e.cause = e'.cause)) := by
  intro source'
  obtain ⟨tokens', h', htokens⟩ := Token.scan_spread h hgap hbefore hafter
  refine ⟨⟨tokens', h', htokens⟩, ?_⟩
  rcases parse_placeless htokens.symm file {} with
    ⟨c, c', s, s', hc, hc', hbare⟩ | ⟨e, e', s, s', he, he', hcause⟩
  · exact .inl ⟨c, c', parseSource_of_ok h hc, parseSource_of_ok h' hc', hbare⟩
  · exact .inr ⟨e, e', parseSource_of_error h he, parseSource_of_error h' he', hcause⟩

/-- A source with a comment and the same tokens on a line each. -/
theorem parseSource_layout_lines :
    ∃ c c', parseSource "struct S;// no more" "t" = .ok c ∧
      parseSource "\tstruct\nS\n;" "t" = .ok c' ∧ c.bare = c'.bare := by
  have hvalues : ((Token.scan "struct S;// no more" "t").map fun tokens =>
      tokens.dropLast.map Token.value).toOption = some ["struct", "S", ";"] := by decide +kernel
  have hok : (parseSource "struct S;// no more" "t" matches .ok _) = true := by decide +kernel
  have hblank (s : String) (h : (s.toList.all Text.isBlank) = true) : Text.IsWhite s :=
    List.all_eq_true.mp h
  match h : Token.scan "struct S;// no more" "t" with
  | .error e =>
    rw [h] at hvalues
    cases hvalues
  | .ok tokens =>
    rw [h] at hvalues
    have hvalues : tokens.dropLast.map Token.value = ["struct", "S", ";"] := Option.some.inj hvalues
    let gap : Nat → String := fun _ => "\n"
    have hgap (i : Nat) : gap i ≠ "" ∧ Text.IsWhite (gap i) :=
      ⟨by decide, hblank "\n" (by decide +kernel)⟩
    obtain ⟨-, hparse⟩ := parseSource_layout h hgap (hblank "\t" (by decide +kernel)) (hblank "" rfl)
    rw [hvalues] at hparse
    rcases hparse with ⟨c, c', hc, hc', hbare⟩ | ⟨e, e', he, -⟩
    · exact ⟨c, c', hc, hc', hbare⟩
    · simp [he] at hok

end FrontEnd
