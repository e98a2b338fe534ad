import FrontEnd.Proofs.Scanning
/-!
# Comments that end and comments that do not

A comment between `/*` and `*/` is longer than any operator, so where its end is found it is skipped
as a whole. Where no end is found there is no comment: the slash and the star that seemed to open it
are operators, and the text after them is scanned as if it were code. A string without its second
quote, in contrast, is never taken for anything else.
-/
namespace FrontEnd

open Lexeme (longest classes Candidate throughCommentEnd StringBody)

variable {file : String} {offset : Nat} {l : Lexeme} {cs text rest body after : List Char}
  {taken more : List (Lexeme × List Char)} {t u : Token}

namespace Lexeme

theorem throughCommentEnd_eq_none_iff : throughCommentEnd cs = none ↔ ¬['*', '/'] <:+: cs := by
  induction cs with
  | nil => simp [throughCommentEnd]
  | cons c cs ih =>
    cases cs with
    | nil => simp [throughCommentEnd, List.infix_cons_iff]
    | cons d cs =>
      rw [throughCommentEnd, List.infix_cons_iff, not_or, ← ih]
      by_cases h : c = '*' ∧ d = '/'
      · simp [h]
      · have hno : ¬(('*' : Char) = c ∧ '/' = d) := fun heq => h ⟨heq.1.symm, heq.2.symm⟩
        simp [h, hno]

/-- Where a comment ends there is a first end. -/
theorem exists_commentBody (h : ['*', '/'] <:+: cs) :
    ∃ body after, cs = body ++ '*' :: '/' :: after ∧ ¬['*', '/'] <:+: body ++ ['*'] := by
  obtain ⟨n, hn⟩ := Option.ne_none_iff_exists'.mp fun hnone =>
    throughCommentEnd_eq_none_iff.mp hnone h
  obtain ⟨body, after, hsplit, hbody, -⟩ := exists_commentEnd hn
  exact ⟨body, after, hsplit, hbody⟩

/-- Two operators begin with a slash, and the second character of neither is a star. -/
theorem operators_slash : ∀ o ∈ TokenKind.operators, o.1.toList.head? = some '/' →
    o = ("/", .slash) ∨ o.1.toList = ['/', '='] := by
  decide

theorem operator_slash_mem : operator "/" .slash ∈ classes := by decide

theorem operator_star_mem : operator "*" .star ∈ classes := by decide

/-- What seems to open a comment does so or is a slash. -/
theorem Candidate.slash_star (hl : l ∈ classes) (h : l.Candidate text rest)
    (heq : '/' :: '*' :: cs = text ++ rest) :
    l = .blockComment ∨ l = .operator "/" .slash ∧ text = ['/'] := by
  obtain ⟨c, text, rfl⟩ := List.exists_cons_of_ne_nil h.ne_nil
  obtain ⟨rfl, heq⟩ := List.cons.inj heq
  have hgroup : some 5 = some l.groupOf := h.group_eq hl
  cases l with
  | blockComment => exact .inl rfl
  | lineComment =>
    obtain ⟨line, hline, -⟩ := h
    rw [(List.cons.inj hline).2] at heq
    cases heq
  | operator spelling kind =>
    have hmem : (spelling, kind) ∈ TokenKind.operators := by simpa [classes] using hl
    have hspelling : '/' :: text = spelling.toList := h.1
    rcases operators_slash _ hmem (by simp [← hspelling]) with hslash | hassigns
    · cases hslash
      exact .inr ⟨rfl, hspelling⟩
    · rw [← hspelling] at hassigns
      rw [(List.cons.inj hassigns).2] at heq
      cases heq
  | blank | word | integer | char | string => simp [groupOf] at hgroup

/-- A comment that ends is longer than the slash it begins with. -/
theorem longest_comment (h : ¬['*', '/'] <:+: body ++ ['*']) :
    longest ('/' :: '*' :: (body ++ '*' :: '/' :: after)) =
      some (.blockComment, body.length + 4) := by
  have hlength : blockComment.length ('/' :: '*' :: (body ++ '*' :: '/' :: after)) =
      body.length + 4 := by
    simp only [length, blockCommentLength, throughCommentEnd_append h]
    change 2 + (body.length + 2) = _
    omega
  refine longest_eq_some_iff.mpr ⟨by decide, hlength, by omega, fun m hm => ?_⟩
  by_cases hzero : m.length ('/' :: '*' :: (body ++ '*' :: '/' :: after)) = 0
  · omega
  obtain ⟨text, rest, heq, hcandidate⟩ := exists_candidate hzero
  rcases hcandidate.slash_star hm heq with rfl | ⟨rfl, rfl⟩
  · exact Nat.le_of_eq hlength
  · rw [heq, hcandidate.length_eq]
    exact Nat.le_add_left 1 _

/-- Where no end follows, the slash is all that is taken. -/
theorem longest_unended (h : ¬['*', '/'] <:+: cs) :
    longest ('/' :: '*' :: cs) = some (.operator "/" .slash, 1) := by
  have hslash : (operator "/" .slash).length ('/' :: '*' :: cs) = 1 := rfl
  refine longest_eq_some_iff.mpr ⟨operator_slash_mem, hslash, Nat.one_ne_zero, fun m hm => ?_⟩
  by_cases hzero : m.length ('/' :: '*' :: cs) = 0
  · omega
  obtain ⟨text, rest, heq, hcandidate⟩ := exists_candidate hzero
  rcases hcandidate.slash_star hm heq with rfl | ⟨rfl, -⟩
  · simp [length, blockCommentLength, throughCommentEnd_eq_none_iff.mpr h] at hzero
  · exact Nat.le_of_eq hslash

/-- Before a star there is always an operator to take. -/
theorem exists_longest_star (cs : List Char) : ∃ l text rest, '*' :: cs = text ++ rest ∧
    longest (text ++ rest) = some (l, text.length) ∧ l.isToken ∧ text.head? = some '*' := by
  match h : longest ('*' :: cs) with
  | none =>
    have hzero := longest_eq_none_iff.mp h _ operator_star_mem
    cases hzero
  | some (l, n) =>
    obtain ⟨hmem, rfl, hpos, -⟩ := longest_eq_some_iff.mp h
    obtain ⟨text, rest, heq, hcandidate⟩ := exists_candidate hpos
    rw [heq, hcandidate.length_eq] at h
    have hhead : text.head? = some '*' := by
      obtain ⟨c, text, rfl⟩ := List.exists_cons_of_ne_nil hcandidate.ne_nil
      rw [(List.cons.inj heq).1]
      rfl
    refine ⟨l, text, rest, heq, h, ⟨?_, ?_, ?_⟩, hhead⟩
    · rintro rfl
      have hgroup := hcandidate.group_eq hmem
      rw [hhead] at hgroup
      cases hgroup
    · rintro rfl
      obtain ⟨line, rfl, -⟩ := hcandidate
      cases hhead
    · rintro rfl
      obtain ⟨line, rfl, -⟩ := hcandidate
      cases hhead

/-- What begins with a quote is a string with both its quotes. -/
theorem Candidate.quote (hl : l ∈ classes) (h : l.Candidate text rest)
    (heq : '"' :: cs = text ++ rest) :
    ∃ body, cs = body ++ '"' :: rest ∧ StringBody body := by
  have hgroup : some 4 = some l.groupOf := by
    obtain ⟨c, text, rfl⟩ := List.exists_cons_of_ne_nil h.ne_nil
    obtain ⟨rfl, -⟩ := List.cons.inj heq
    exact h.group_eq hl
  cases l with
  | string =>
    obtain ⟨body, rfl, hbody⟩ := h
    exact ⟨body, by simpa using heq, hbody⟩
  | blank | lineComment | blockComment | word | integer | char | operator _ _ =>
    simp [groupOf] at hgroup

end Lexeme

namespace Token

/-- What follows a stop on the way to a later one. -/
theorem Stops.split (h : Stops cs (taken ++ more) rest) :
    ∃ ds, Stops cs taken ds ∧ Stops ds more rest := by
  induction taken generalizing cs with
  | nil => exact ⟨cs, .here cs, h⟩
  | cons x taken ih =>
    rw [List.cons_append] at h
    cases h with
    | take hl hs =>
      obtain ⟨ds, htaken, hmore⟩ := ih hs
      exact ⟨ds, .take hl htaken, hmore⟩

theorem tokensOf_append : tokensOf file offset (taken ++ more) =
    tokensOf file offset taken ++ tokensOf file (offset + byteLength (textOf taken)) more := by
  induction taken generalizing offset with
  | nil => simp [tokensOf, textOf, byteLength]
  | cons x taken ih =>
    have htext : textOf (x :: taken) = x.2 ++ textOf taken := rfl
    rw [List.cons_append, tokensOf, tokensOf, ih, htext, byteLength_append, List.append_assoc,
      Nat.add_assoc]

theorem ofLexeme?_eq_some (h : ofLexeme? file offset l text = some t) :
    l.kind? (String.ofList text) = some t.kind ∧ t.value = String.ofList text ∧
      t.span = spanAt file offset (byteLength text) := by
  obtain ⟨k, hk, rfl⟩ := Option.map_eq_some_iff.mp h
  exact ⟨hk, rfl, rfl⟩

theorem exists_ofLexeme? (hl : l.isToken) (file : String) (offset : Nat) (text : List Char) :
    ∃ t, ofLexeme? file offset l text = some t := by
  obtain ⟨k, hk⟩ := Option.isSome_iff_exists.mp
    (Lexeme.kind?_isSome_iff (s := String.ofList text) |>.mpr hl)
  exact ⟨_, by rw [ofLexeme?, hk]; rfl⟩

/-- At every stop of the scanner before a slash and a star the end of a comment follows. -/
def CommentsEnd (source : List Char) : Prop :=
  ∀ taken cs, Stops source taken ('/' :: '*' :: cs) → ['*', '/'] <:+: cs

/-- Two of the tokens are a slash and, with no text between, one that begins with a star. -/
def SlashBeforeStar (file : String) (source : List Char) (tokens : List Token) : Prop :=
  ∃ taken l t u later rest, tokens = tokensOf file 0 taken ++ t :: u :: later ∧
    Stops source (taken ++ [(l, t.value.toList)]) (u.value.toList ++ rest) ∧
    t.kind = .slash ∧ u.value.toList.head? = some '*'

section

variable {source : String} {tokens : List Token} (h : scan source file = .ok tokens)
include h

theorem Stops.scanFrom_ok (hs : Stops source.toList taken rest) :
    ∃ later, scanFrom file 0 (byteLength (textOf taken)) rest = .ok later ∧
      tokens = tokensOf file 0 taken ++ later := by
  rw [scan, hs.scanFrom_eq, Nat.zero_add] at h
  cases hlater : scanFrom file 0 (byteLength (textOf taken)) rest with
  | error e =>
    rw [hlater] at h
    cases h
  | ok later =>
    rw [hlater] at h
    exact ⟨later, rfl, (Except.ok.inj h).symm⟩

/-- A comment that ends is taken as a whole and leaves no token. -/
theorem Stops.comment_ended (hbody : ¬['*', '/'] <:+: body ++ ['*'])
    (hs : Stops source.toList taken ('/' :: '*' :: (body ++ '*' :: '/' :: after))) :
    let comment := '/' :: '*' :: body ++ ['*', '/']
    Stops source.toList (taken ++ [(.blockComment, comment)]) after ∧
      ∃ later, scanFrom file 0 (byteLength (textOf taken ++ comment)) after = .ok later ∧
        tokens = tokensOf file 0 taken ++ later := by
  intro comment
  have hsplit : '/' :: '*' :: (body ++ '*' :: '/' :: after) = comment ++ after := by simp [comment]
  have hlongest : longest ('/' :: '*' :: (body ++ '*' :: '/' :: after)) =
      some (.blockComment, body.length + 4) := Lexeme.longest_comment hbody
  rw [hsplit] at hs hlongest
  have hlength : comment.length = body.length + 4 := by simp [comment]
  rw [← hlength] at hlongest
  have hbehind := hs.append (.take hlongest (.here after))
  refine ⟨hbehind, ?_⟩
  obtain ⟨later, hlater, heq⟩ := hbehind.scanFrom_ok h
  have htext : textOf (taken ++ [(.blockComment, comment)]) = textOf taken ++ comment := by
    simp [textOf]
  rw [htext] at hlater
  refine ⟨later, hlater, ?_⟩
  rw [heq, tokensOf_append]
  simp [tokensOf, ofLexeme?, Lexeme.kind?]

/-- A comment that does not end is two operators. -/
theorem Stops.comment_unended (hend : ¬['*', '/'] <:+: cs)
    (hs : Stops source.toList taken ('/' :: '*' :: cs)) :
    ∃ u later rest, Stops source.toList (taken ++ [(.operator "/" .slash, "/".toList)])
        (u.value.toList ++ rest) ∧
      tokens = tokensOf file 0 taken ++
        ⟨.slash, "/", spanAt file (byteLength (textOf taken)) 1⟩ :: u :: later ∧
      u.span.start = .ofByte (byteLength (textOf taken) + 1) file ∧
      u.value.toList.head? = some '*' := by
  have hslash : Stops source.toList (taken ++ [(.operator "/" .slash, "/".toList)]) ('*' :: cs) :=
    hs.append (@Stops.take _ ['/'] _ _ _ (Lexeme.longest_unended hend) (.here _))
  obtain ⟨l, text, rest, hstar, hlongest, htoken, hhead⟩ := Lexeme.exists_longest_star cs
  rw [hstar] at hslash
  obtain ⟨later, -, heq⟩ := (hslash.append (.take hlongest (.here rest))).scanFrom_ok h
  obtain ⟨u, hu⟩ := exists_ofLexeme? htoken file (byteLength (textOf taken) + 1) text
  obtain ⟨-, hvalue, hspan⟩ := ofLexeme?_eq_some hu
  have htext : u.value.toList = text := by rw [hvalue, String.toList_ofList]
  refine ⟨u, later, rest, htext ▸ hslash, ?_, by rw [hspan]; rfl, htext ▸ hhead⟩
  have hone : byteLength ['/'] = 1 := rfl
  have hfirst : ofLexeme? file (byteLength (textOf taken)) (.operator "/" .slash) ['/'] =
      some ⟨.slash, "/", spanAt file (byteLength (textOf taken)) 1⟩ := rfl
  rw [heq, List.append_assoc, tokensOf_append, Nat.zero_add]
  simp [tokensOf, hfirst, hone, hu]

/-- A slash directly before a token that begins with a star was no comment. -/
theorem SlashBeforeStar.not_commentsEnd (hslash : SlashBeforeStar file source.toList tokens) :
    ¬CommentsEnd source.toList := by
  intro hends
  obtain ⟨taken, l, t, u, later, rest, rfl, hs, hkind, hstar⟩ := hslash
  obtain ⟨m, -, after, -, hmem, hcandidate, hk⟩ :=
    exists_lexeme_of_scan h (t := t) (by simp) (by rw [hkind]; decide)
  have hvalue : t.value = "/" := Lexeme.kind?_spelling hmem hcandidate hk (by rw [hkind]; rfl)
  obtain ⟨us, hus⟩ := List.head?_eq_some_iff.mp hstar
  obtain ⟨ds, hfront, hmore⟩ := hs.split
  obtain _ | ⟨hlongest, hmore⟩ := hmore
  obtain _ | ⟨-, -⟩ := hmore
  have hopened : t.value.toList ++ (u.value.toList ++ rest) = '/' :: '*' :: (us ++ rest) := by
    rw [hvalue, hus]
    rfl
  rw [hopened] at hfront hlongest
  obtain ⟨body, behind, hsplit, hbody⟩ := Lexeme.exists_commentBody (hends _ _ hfront)
  rw [hsplit, Lexeme.longest_comment hbody] at hlongest
  rw [Option.some.injEq, Prod.mk.injEq, hvalue] at hlongest
  have hlength : body.length + 4 = 1 := hlongest.2
  omega

end

/-- What becomes of comments in a source that is scanned. All of them end if and only if no slash
stands directly before a token that begins with a star. Where the scanner stops before the opening of
a comment, either the comment ends, then it is taken as a whole and the tokens after it are those of the
text behind it; or it does not, then its slash and its star are tokens. Where the scanner stops before
a double quote, a whole string follows. -/
theorem scan_comments {source : String} {tokens : List Token}
    (h : scan source file = .ok tokens) :
    (CommentsEnd source.toList ↔ ¬SlashBeforeStar file source.toList tokens) ∧
    (∀ taken cs, Stops source.toList taken ('/' :: '*' :: cs) →
      (∃ body after, cs = body ++ '*' :: '/' :: after ∧ ¬['*', '/'] <:+: body ++ ['*'] ∧
        let comment := '/' :: '*' :: body ++ ['*', '/']
        Stops source.toList (taken ++ [(.blockComment, comment)]) after ∧
        ∃ later, scanFrom file 0 (byteLength (textOf taken ++ comment)) after = .ok later ∧
          tokens = tokensOf file 0 taken ++ later) ∨
      ¬['*', '/'] <:+: cs ∧ ∃ u later, tokens = tokensOf file 0 taken ++
          ⟨.slash, "/", spanAt file (byteLength (textOf taken)) 1⟩ :: u :: later ∧
        u.span.start = .ofByte (byteLength (textOf taken) + 1) file ∧
        u.value.toList.head? = some '*') ∧
    ∀ taken cs, Stops source.toList taken ('"' :: cs) →
      ∃ body after, cs = body ++ '"' :: after ∧ StringBody body := by
  refine ⟨⟨?_, ?_⟩, fun taken cs hs => ?_, fun taken cs hs => ?_⟩
  · exact fun hends hslash => hslash.not_commentsEnd h hends
  · intro hnone taken cs hs
    by_contra hend
    obtain ⟨u, later, rest, hslash, heq, -, hhead⟩ := hs.comment_unended h hend
    exact hnone ⟨taken, _, _, u, later, rest, heq, hslash, rfl, hhead⟩
  · by_cases hend : ['*', '/'] <:+: cs
    · obtain ⟨body, after, rfl, hbody⟩ := Lexeme.exists_commentBody hend
      exact .inl ⟨body, after, rfl, hbody, hs.comment_ended h hbody⟩
    · obtain ⟨u, later, -, -, hunended⟩ := hs.comment_unended h hend
      exact .inr ⟨hend, u, later, hunended⟩
  · obtain ⟨later, hlater, -⟩ := hs.scanFrom_ok h
    match hlongest : longest ('"' :: cs) with
    | none =>
      rw [scanFrom_error hlongest] at hlater
      cases hlater
    | some (l, n) =>
      obtain ⟨text, rest, heq, -, hmem, hcandidate⟩ := longest_split hlongest
      obtain ⟨body, hbody⟩ := hcandidate.quote hmem heq
      exact ⟨body, rest, hbody⟩

/-- The comment in `a /**/ b` ends, so no slash stands before a star in its tokens. -/
theorem scan_comments_ended :
    scan "a /**/ b" "t" = .ok [⟨.identifier, "a", spanAt "t" 0 1⟩,
      ⟨.identifier, "b", spanAt "t" 7 1⟩, endMark "t" 8] ∧
    CommentsEnd "a /**/ b".toList := by
  have hscan : scan "a /**/ b" "t" = .ok [⟨.identifier, "a", spanAt "t" 0 1⟩,
      ⟨.identifier, "b", spanAt "t" 7 1⟩, endMark "t" 8] := ok_of_toOption (by decide +kernel)
  refine ⟨hscan, (scan_comments hscan).1.mpr ?_⟩
  rintro ⟨taken, l, t, u, later, rest, heq, -, hkind, -⟩
  have hmem : t ∈ [(⟨.identifier, "a", spanAt "t" 0 1⟩ : Token),
      ⟨.identifier, "b", spanAt "t" 7 1⟩, endMark "t" 8] := by simp [heq]
  have hno : ∀ t ∈ [(⟨.identifier, "a", spanAt "t" 0 1⟩ : Token),
      ⟨.identifier, "b", spanAt "t" 7 1⟩, endMark "t" 8], t.kind ≠ .slash := by decide
  exact hno t hmem hkind

/-- The scanner stops before the comment that `a /* b` opens and never ends; the slash and the star are
tokens and the text of the comment is a third. A string that does not end is an error. -/
theorem scan_unended_comment :
    scan "a /* b" "t" = .ok [⟨.identifier, "a", spanAt "t" 0 1⟩, ⟨.slash, "/", spanAt "t" 2 1⟩,
      ⟨.star, "*", spanAt "t" 3 1⟩, ⟨.identifier, "b", spanAt "t" 5 1⟩, endMark "t" 6] ∧
    ¬CommentsEnd "a /* b".toList ∧
    SlashBeforeStar "t" "a /* b".toList [⟨.identifier, "a", spanAt "t" 0 1⟩, ⟨.slash, "/", spanAt "t" 2 1⟩,
      ⟨.star, "*", spanAt "t" 3 1⟩, ⟨.identifier, "b", spanAt "t" 5 1⟩, endMark "t" 6] ∧
    (scan "a \" b" "t").toOption = none := by
  have hblank : Stops ([' '] ++ ['/', '*', ' ', 'b']) [(.blank, [' '])] ['/', '*', ' ', 'b'] :=
    .take (by decide +kernel) (.here _)
  have hstop : Stops (['a'] ++ [' ', '/', '*', ' ', 'b']) [(.word, ['a']), (.blank, [' '])]
      ['/', '*', ' ', 'b'] := .take (by decide +kernel) hblank
  have hslash : Stops (['/'] ++ ['*', ' ', 'b']) [(.operator "/" .slash, ['/'])] ['*', ' ', 'b'] :=
    .take (by decide +kernel) (.here _)
  refine ⟨ok_of_toOption (by decide +kernel), fun hends => ?_, ?_, by decide +kernel⟩
  · exact absurd (hends _ _ hstop) (by decide)
  · exact ⟨_, _, ⟨.slash, "/", spanAt "t" 2 1⟩, ⟨.star, "*", spanAt "t" 3 1⟩, _, _, rfl,
      hstop.append hslash, rfl, rfl⟩

end Token

end FrontEnd
