import FrontEnd.Proofs.LongestLexeme
/-!
# What the scanner makes of a source

The scanner stops before a place, takes the longest lexeme there and stops again behind it, until
nothing is left or no class has a lexeme. The lexemes taken make up the source; those that are no
tokens make up the gaps between the tokens.
-/
namespace FrontEnd

open Lexeme (longest classes Candidate kindOf)

variable {file : String} {offset n : Nat} {l : Lexeme} {cs text rest : List Char}
  {taken more : List (Lexeme × List Char)}

/-- A result that is known to be a value, as a test tells. -/
theorem ok_of_toOption {ε α : Type} {x : Except ε α} {a : α} (h : x.toOption = some a) : x = .ok a := by
  cases x with
  | error e => cases h
  | ok b => rw [Option.some.inj h]

theorem byteLength_append (cs ds : List Char) :
    byteLength (cs ++ ds) = byteLength cs + byteLength ds := by
  induction cs with
  | nil => simp [byteLength]
  | cons c cs ih => simp only [List.cons_append, byteLength, ih, Nat.add_assoc]

theorem byteLength_eq (cs : List Char) : byteLength cs = (String.ofList cs).utf8ByteSize := by
  induction cs with
  | nil => rfl
  | cons c cs ih =>
    have hcons : String.ofList (c :: cs) = String.singleton c ++ String.ofList cs := by
      rw [String.singleton_eq_ofList, ← String.ofList_append]
      rfl
    rw [hcons, String.utf8ByteSize_append, ← ih, byteLength, String.utf8ByteSize_singleton]

theorem byteLength_toList (s : String) : byteLength s.toList = s.utf8ByteSize := by
  rw [byteLength_eq, String.ofList_toList]

theorem byteLength_pos (h : cs ≠ []) : 0 < byteLength cs := by
  obtain ⟨c, cs, rfl⟩ := List.exists_cons_of_ne_nil h
  exact Nat.add_pos_left c.utf8Size_pos _

namespace Token

/-- From the front of a text the scanner takes some lexemes, the longest at each place, and stops
before the rest. -/
inductive Stops : List Char → List (Lexeme × List Char) → List Char → Prop
  | here (cs : List Char) : Stops cs [] cs
  | take {l : Lexeme} {text cs rest : List Char} {taken : List (Lexeme × List Char)} :
    longest (text ++ cs) = some (l, text.length) → Stops cs taken rest →
    Stops (text ++ cs) ((l, text) :: taken) rest

/-- The text that some lexemes make up. -/
def textOf (taken : List (Lexeme × List Char)) : List Char := (taken.map (·.2)).flatten

/-- The tokens that some lexemes become, the first of them at `offset`. -/
def tokensOf (file : String) : (offset : Nat) → List (Lexeme × List Char) → List Token
  | _, [] => []
  | offset, (l, text) :: taken =>
    (ofLexeme? file offset l text).toList ++ tokensOf file (offset + byteLength text) taken

theorem longest_split (h : longest cs = some (l, n)) :
    ∃ text rest, cs = text ++ rest ∧ text.length = n ∧ l ∈ classes ∧ l.Candidate text rest := by
  obtain ⟨hmem, rfl, hpos, -⟩ := Lexeme.longest_eq_some_iff.mp h
  obtain ⟨text, rest, rfl, hcandidate⟩ := Lexeme.exists_candidate hpos
  exact ⟨text, rest, rfl, hcandidate.length_eq.symm, hmem, hcandidate⟩

theorem Stops.eq_append (h : Stops cs taken rest) : cs = textOf taken ++ rest := by
  induction h with
  | here cs => rfl
  | take h hs ih => simp [ih, textOf]

theorem Stops.append {ds : List Char} (h : Stops cs taken rest) (h' : Stops rest more ds) :
    Stops cs (taken ++ more) ds := by
  induction h with
  | here cs => exact h'
  | take hl hs ih => exact .take hl (ih h')

theorem longest_candidate (h : longest (text ++ rest) = some (l, text.length)) :
    l ∈ classes ∧ l.Candidate text rest := by
  obtain ⟨hmem, hlength, hpos, -⟩ := Lexeme.longest_eq_some_iff.mp h
  exact ⟨hmem, Lexeme.candidate_iff.mpr ⟨by simpa using hpos, hlength⟩⟩

theorem Stops.ne_nil (h : Stops cs taken rest) : ∀ x ∈ taken, x.2 ≠ [] := by
  induction h with
  | here cs => simp
  | take hl hs ih =>
    rw [List.forall_mem_cons]
    exact ⟨(longest_candidate hl).2.ne_nil, ih⟩

/-- Every text has a last stop: nothing is left there, or no class has a lexeme. -/
theorem exists_lastStop (cs : List Char) :
    ∃ taken rest, Stops cs taken rest ∧ (rest = [] ∨ longest rest = none) := by
  match h : longest cs with
  | none => exact ⟨[], cs, .here cs, .inr h⟩
  | some (l, n) =>
    obtain ⟨text, rest, rfl, rfl, -, hcandidate⟩ := longest_split h
    have hshorter : rest.length < (text ++ rest).length := by
      have hpos := List.length_pos_iff.mpr hcandidate.ne_nil
      simp only [List.length_append]
      omega
    obtain ⟨taken, rest', hs, hend⟩ := exists_lastStop rest
    exact ⟨_, rest', .take h hs, hend⟩
termination_by cs.length

/-- Cutting the source at a stop leaves the stops before it. -/
theorem Stops.cut (h : Stops cs taken rest) : Stops (textOf taken) taken [] := by
  induction h with
  | here cs => exact .here []
  | take hl hs ih =>
    rw [hs.eq_append] at hl
    exact .take (Lexeme.longest_cut hl) ih

theorem scanFrom_nil (file : String) (inside offset : Nat) :
    scanFrom file inside offset [] = .ok [endMark file offset] := by
  cases inside <;> rfl

theorem scanFrom_inside (file : String) (inside offset : Nat) (c : Char) (cs : List Char) :
    scanFrom file (inside + 1) offset (c :: cs) = scanFrom file inside (offset + c.utf8Size) cs :=
  rfl

section
-- Without this the equation is checked by running the scanner on an unknown text.
attribute [local irreducible] Lexeme.longest

theorem scanFrom_cons (file : String) (offset : Nat) (c : Char) (cs : List Char) :
    scanFrom file 0 offset (c :: cs) =
      match longest (c :: cs) with
      | none => .error ⟨.unrecognisedToken c.toString, .ofByte offset file⟩
      | some (l, n) => do
        let rest ← scanFrom file (n - 1) (offset + c.utf8Size) cs
        return (ofLexeme? file offset l ((c :: cs).take n)).toList ++ rest := by
  rfl

end

theorem scanFrom_skip (inside : List Char) :
    scanFrom file inside.length offset (inside ++ rest) =
      scanFrom file 0 (offset + byteLength inside) rest := by
  induction inside generalizing offset with
  | nil => rfl
  | cons c inside ih =>
    rw [List.cons_append, List.length_cons, scanFrom_inside, ih, byteLength, Nat.add_assoc]

theorem scanFrom_take (h : longest (text ++ rest) = some (l, text.length)) :
    scanFrom file 0 offset (text ++ rest) =
      ((ofLexeme? file offset l text).toList ++ ·) <$>
        scanFrom file 0 (offset + byteLength text) rest := by
  obtain ⟨c, text, rfl⟩ := List.exists_cons_of_ne_nil (longest_candidate h).2.ne_nil
  rw [List.cons_append] at h ⊢
  rw [scanFrom_cons, h]
  have hskip : scanFrom file ((c :: text).length - 1) (offset + c.utf8Size) (text ++ rest) =
      scanFrom file 0 (offset + byteLength (c :: text)) rest := by
    rw [List.length_cons, Nat.add_sub_cancel, scanFrom_skip, byteLength, Nat.add_assoc]
  have htake : (c :: (text ++ rest)).take (c :: text).length = c :: text := by simp
  simp only [hskip, htake]
  cases scanFrom file 0 (offset + byteLength (c :: text)) rest <;> rfl

theorem Stops.scanFrom_eq (h : Stops cs taken rest) (file : String) (offset : Nat) :
    scanFrom file 0 offset cs =
      (tokensOf file offset taken ++ ·) <$>
        scanFrom file 0 (offset + byteLength (textOf taken)) rest := by
  induction h generalizing offset with
  | here cs =>
    simp only [tokensOf, textOf, List.map_nil, List.flatten_nil, byteLength, Nat.add_zero,
      List.nil_append]
    cases scanFrom file 0 offset cs <;> rfl
  | @take l text cs rest taken hl hs ih =>
    have htext : textOf ((l, text) :: taken) = text ++ textOf taken := rfl
    rw [scanFrom_take hl, ih, tokensOf, htext, byteLength_append, ← Nat.add_assoc]
    cases scanFrom file 0 (offset + byteLength text + byteLength (textOf taken)) rest <;>
      simp [Functor.map, Except.map]

/-- At a stop before a text and the rest of the source one token is made of the text, and the next
stop is behind it. -/
def Emits (source : String) (taken : List (Lexeme × List Char)) (l : Lexeme) (k : TokenKind)
    (text rest : List Char) : Prop :=
  Stops source.toList (taken ++ [(l, text)]) rest ∧
  ∀ file, let place := byteLength (textOf taken)
    scan source file = (tokensOf file 0 taken ++
      ⟨k, String.ofList text, spanAt file place (byteLength text)⟩ :: ·) <$>
        scanFrom file 0 (place + byteLength text) rest

/-- A candidate is taken where its class is the only one with lexemes that begin as it does. -/
theorem Stops.emits {source : String} {k : TokenKind}
    (h : Stops source.toList taken (text ++ rest)) (hl : l ∈ classes) (hgroup : l.groupOf ≠ 5)
    (hcandidate : l.Candidate text rest) (hk : l.kind? (String.ofList text) = some k) :
    Emits source taken l k text rest := by
  have hlongest := hcandidate.longest_eq hl hgroup
  constructor
  · apply h.append
    exact .take hlongest (.here rest)
  · intro file place
    have htoken : ofLexeme? file place l text =
        some ⟨k, String.ofList text, spanAt file place (byteLength text)⟩ := by
      rw [ofLexeme?, hk]
      rfl
    rw [scan, h.scanFrom_eq, Nat.zero_add, scanFrom_take hlongest, htoken]
    cases scanFrom file 0 (place + byteLength text) rest <;> rfl

theorem scanFrom_error {c : Char} (h : longest (c :: cs) = none) :
    scanFrom file 0 offset (c :: cs) = .error ⟨.unrecognisedToken c.toString, .ofByte offset file⟩ := by
  rw [scanFrom_cons, h]

/-- A source that is scanned is taken to its end. -/
theorem Stops.scan_eq {source : String} (h : Stops source.toList taken []) (file : String) :
    scan source file =
      .ok (tokensOf file 0 taken ++ [endMark file (byteLength source.toList)]) := by
  rw [scan, h.scanFrom_eq, Nat.zero_add]
  have hsource : textOf taken = source.toList := by simpa using h.eq_append.symm
  rw [hsource, scanFrom_nil]
  rfl

theorem exists_stops_of_scan {source : String} {tokens : List Token}
    (h : scan source file = .ok tokens) :
    ∃ taken, Stops source.toList taken [] ∧
      tokens = tokensOf file 0 taken ++ [endMark file (byteLength source.toList)] := by
  obtain ⟨taken, rest, hs, hend⟩ := exists_lastStop source.toList
  cases rest with
  | nil => exact ⟨taken, hs, Except.ok.inj (h.symm.trans (hs.scan_eq file))⟩
  | cons c rest =>
    have hnone : longest (c :: rest) = none := by simpa using hend
    rw [scan, hs.scanFrom_eq, scanFrom_error hnone] at h
    cases h

theorem Stops.candidate (h : Stops cs taken rest) (hx : (l, text) ∈ taken) :
    ∃ before after, cs = before ++ (text ++ after) ∧ l ∈ classes ∧ l.Candidate text after := by
  induction h with
  | here cs => cases hx
  | @take m text' cs rest taken hlongest hs ih =>
    rcases List.mem_cons.mp hx with heq | hx
    · cases heq
      exact ⟨[], cs, rfl, longest_candidate hlongest⟩
    · obtain ⟨before, after, rfl, hcandidate⟩ := ih hx
      exact ⟨text' ++ before, after, by simp, hcandidate⟩

theorem mem_tokensOf {t : Token} (h : t ∈ tokensOf file offset taken) :
    ∃ l text, (l, text) ∈ taken ∧ t.value = String.ofList text ∧ l.kind? t.value = some t.kind := by
  induction taken generalizing offset with
  | nil => cases h
  | cons x taken ih =>
    obtain ⟨l, text⟩ := x
    rw [tokensOf, List.mem_append, Option.mem_toList, ofLexeme?] at h
    rcases h with h | h
    · obtain ⟨k, hk, rfl⟩ := Option.map_eq_some_iff.mp h
      exact ⟨l, text, List.mem_cons_self, rfl, hk⟩
    · obtain ⟨m, text', hmem, ht⟩ := ih h
      exact ⟨m, text', List.mem_cons_of_mem _ hmem, ht⟩

/-- Every token but the end is a lexeme of the source. -/
theorem exists_lexeme_of_scan {source : String} {tokens : List Token} {t : Token}
    (h : scan source file = .ok tokens) (ht : t ∈ tokens) (hkind : t.kind ≠ .eof) :
    ∃ l before after, source.toList = before ++ (t.value.toList ++ after) ∧ l ∈ classes ∧
      l.Candidate t.value.toList after ∧ l.kind? t.value = some t.kind := by
  obtain ⟨taken, hs, rfl⟩ := exists_stops_of_scan h
  rcases List.mem_append.mp ht with ht | ht
  · obtain ⟨l, text, hmem, hvalue, hk⟩ := mem_tokensOf ht
    obtain ⟨before, after, hsource, hl, hcandidate⟩ := hs.candidate hmem
    have htext : t.value.toList = text := by rw [hvalue, String.toList_ofList]
    rw [← htext] at hsource hcandidate
    exact ⟨l, before, after, hsource, hl, hcandidate, hk⟩
  · obtain rfl := List.mem_singleton.mp ht
    exact absurd rfl hkind

/-- A lexeme before `rest` that is longer than every other candidate at its place. -/
structure Wins (l : Lexeme) (text rest : List Char) : Prop where
  mem : l ∈ classes
  candidate : l.Candidate text rest
  longest : ∀ m ∈ classes, ∀ text' rest', text ++ rest = text' ++ rest' →
    m.Candidate text' rest' → text'.length < text.length ∨ m = l ∧ text' = text

theorem longest_iff_wins : longest (text ++ rest) = some (l, text.length) ↔ Wins l text rest := by
  rw [Lexeme.longest_eq_some_iff]
  constructor
  · rintro ⟨hmem, hlength, hpos, hmax⟩
    have hcandidate : l.Candidate text rest := Lexeme.candidate_iff.mpr ⟨by simpa using hpos, hlength⟩
    refine ⟨hmem, hcandidate, fun m hm text' rest' heq h => ?_⟩
    have hlength' : m.length (text ++ rest) = text'.length := by rw [heq, h.length_eq]
    rcases Nat.lt_or_eq_of_le (hlength' ▸ hmax m hm) with hlt | hsame
    · exact .inl hlt
    · obtain ⟨rfl, rfl⟩ := List.append_inj heq.symm hsame
      exact .inr ⟨h.unique hm hmem hcandidate, rfl⟩
  · rintro ⟨hmem, hcandidate, hlongest⟩
    refine ⟨hmem, hcandidate.length_eq, by simpa using hcandidate.ne_nil, fun m hm => ?_⟩
    by_cases hzero : m.length (text ++ rest) = 0
    · omega
    · obtain ⟨text', rest', heq, h⟩ := Lexeme.exists_candidate hzero
      rw [heq, h.length_eq]
      rcases hlongest m hm text' rest' heq h with hlt | ⟨-, rfl⟩
      · omega
      · exact Nat.le_refl _

theorem longest_eq_none_iff_candidate :
    longest cs = none ↔ ∀ l ∈ classes, ∀ text rest, cs = text ++ rest → ¬l.Candidate text rest := by
  rw [Lexeme.longest_eq_none_iff]
  constructor
  · rintro h l hl text rest rfl hcandidate
    have hzero := h l hl
    rw [hcandidate.length_eq] at hzero
    exact hcandidate.ne_nil (List.length_eq_zero_iff.mp hzero)
  · intro h l hl
    by_contra hpos
    obtain ⟨text, rest, heq, hcandidate⟩ := Lexeme.exists_candidate hpos
    exact h l hl text rest heq hcandidate

/-- Maximal munch. Wherever the scanner stops before something, one class has a candidate longer than
every other; whatever the order of the classes, it is taken, the next stop is behind it, and its
kind, if it is a token, is a function of its text that makes no reserved word an identifier. Or no
class has a candidate; then the scan fails with the first character at its place, and the source cut
there has the tokens before it. -/
theorem Stops.maximal_munch {source : String} (h : Stops source.toList taken rest) (file : String) :
    let place := byteLength (textOf taken)
    scan source file = (tokensOf file 0 taken ++ ·) <$> scanFrom file 0 place rest ∧
    ∀ c cs, rest = c :: cs →
      (∃ l text rest', rest = text ++ rest' ∧ Wins l text rest' ∧
        (∀ ls : List Lexeme, (∀ m, m ∈ ls ↔ m ∈ classes) →
          Lexeme.longestOf rest ls = some (l, text.length)) ∧
        Stops source.toList (taken ++ [(l, text)]) rest' ∧
        scanFrom file 0 place rest = ((ofLexeme? file place l text).toList ++ ·) <$>
          scanFrom file 0 (place + byteLength text) rest' ∧
        ∀ k, l.kind? (String.ofList text) = some k →
          k = kindOf (String.ofList text) ∧
          (k = .identifier → TokenKind.ofReserved? (String.ofList text) = none)) ∨
      ((∀ l ∈ classes, ∀ text rest', rest = text ++ rest' → ¬l.Candidate text rest') ∧
        source = String.ofList (textOf taken) ++ String.ofList rest ∧
        scan source file = .error ⟨.unrecognisedToken c.toString, .ofByte place file⟩ ∧
        scan (String.ofList (textOf taken)) file =
          .ok (tokensOf file 0 taken ++ [endMark file place])) := by
  intro place
  have hscan : scan source file = (tokensOf file 0 taken ++ ·) <$> scanFrom file 0 place rest := by
    rw [scan, h.scanFrom_eq, Nat.zero_add]
  refine ⟨hscan, ?_⟩
  rintro c cs rfl
  match hlongest : longest (c :: cs) with
  | some (l, n) =>
    left
    obtain ⟨text, rest', heq, rfl, hmem, hcandidate⟩ := longest_split hlongest
    rw [heq] at h hlongest ⊢
    refine ⟨l, text, rest', rfl, longest_iff_wins.mp hlongest, fun ls hls => ?_, ?_, ?_, ?_⟩
    · rw [Lexeme.longestOf_eq_longest hls, hlongest]
    · exact h.append (.take hlongest (.here rest'))
    · exact scanFrom_take hlongest
    · intro k hk
      exact ⟨hcandidate.kind?_eq hmem hk, (Lexeme.kind?_spec hmem hk).2⟩
  | none =>
    right
    refine ⟨longest_eq_none_iff_candidate.mp hlongest, ?_, ?_, ?_⟩
    · rw [← String.ofList_append, ← h.eq_append, String.ofList_toList]
    · rw [hscan, scanFrom_error hlongest]
      rfl
    · have hcut : Stops (String.ofList (textOf taken)).toList taken [] := by
        rw [String.toList_ofList]
        exact h.cut
      rw [hcut.scan_eq, String.toList_ofList]

/-- A word and a blank are taken from `a #`; there is no lexeme before the last character. -/
theorem Stops.maximal_munch_numberSign :
    scan "a #" "t" = .error ⟨.unrecognisedToken "#", ⟨2, "t"⟩⟩ := by
  have hblank : Stops ([' '] ++ ['#']) [(.blank, [' '])] ['#'] :=
    .take (by decide +kernel) (.here ['#'])
  have hstops : Stops (['a'] ++ [' ', '#']) [(.word, ['a']), (.blank, [' '])] ['#'] :=
    .take (by decide +kernel) hblank
  obtain ⟨-, h⟩ := Stops.maximal_munch (show Stops "a #".toList _ _ from hstops) "t"
  rcases h '#' [] rfl with ⟨l, text, rest', -, -, horder, -⟩ | ⟨-, -, hscan, -⟩
  · have hnone : longest ['#'] = none := by decide +kernel
    have hsome := horder classes fun _ => .rfl
    exact absurd (hsome.symm.trans hnone) (by simp)
  · exact hscan

end Token

end FrontEnd
