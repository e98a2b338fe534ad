import FrontEnd.Proofs.Scanning
/-!
# The tokens and gaps of a source

The tokens of a source and the gaps between them make up the source: every token stands where its
span says, and a gap holds nothing but blanks and comments.
-/
namespace FrontEnd

open Lexeme (longest classes Candidate)

/-- Text of blanks and comments before `rest`. A line comment runs to the end of its line. -/
inductive Gap (rest : List Char) : List Char → Prop
  | nil : Gap rest []
  | blank {c : Char} {gap : List Char} : Text.isBlank c = true → Gap rest gap → Gap rest (c :: gap)
  | lineComment {body gap : List Char} : (∀ c ∈ body, c ≠ '\n') → Ends (· ≠ '\n') (gap ++ rest) →
    Gap rest gap → Gap rest ('/' :: '/' :: body ++ gap)
  | blockComment {body gap : List Char} : ¬['*', '/'] <:+: body ++ ['*'] → Gap rest gap →
    Gap rest ('/' :: '*' :: body ++ ['*', '/'] ++ gap)

namespace Token

/-- The tokens lie in the text that begins at `offset` in their order, with gaps before, between
and behind them. -/
inductive Partition (file : String) : (offset : Nat) → List Char → List Token → Prop
  | last {offset : Nat} {gap : List Char} : Gap [] gap →
    Partition file offset gap [endMark file (offset + byteLength gap)]
  | token {offset : Nat} {gap text rest : List Char} {kind : TokenKind} {tokens : List Token} :
    Gap (text ++ rest) gap → text ≠ [] → kind ≠ .eof →
    Partition file (offset + byteLength gap + byteLength text) rest tokens →
    Partition file offset (gap ++ (text ++ rest))
      (⟨kind, String.ofList text, spanAt file (offset + byteLength gap) (byteLength text)⟩ :: tokens)

variable {file : String} {offset : Nat} {l : Lexeme} {cs text rest gap : List Char}
  {tokens : List Token} {taken : List (Lexeme × List Char)}

theorem gap_append (hl : ¬l.isToken) (h : l.Candidate text (gap ++ rest)) (hgap : Gap rest gap) :
    Gap rest (text ++ gap) := by
  cases l with
  | blank =>
    obtain ⟨-, hall, -⟩ := h
    clear hl
    induction text with
    | nil => exact hgap
    | cons c text ih =>
      rw [List.forall_mem_cons] at hall
      exact .blank hall.1 (ih hall.2)
  | lineComment =>
    obtain ⟨body, rfl, hbody, hends⟩ := h
    exact .lineComment hbody hends hgap
  | blockComment =>
    obtain ⟨body, rfl, hfirst⟩ := h
    exact .blockComment hfirst hgap
  | word | integer | char | string | operator spelling kind => simp [Lexeme.isToken] at hl

/-- A lexeme that is no token makes the first gap wider. -/
theorem Partition.skip (hl : ¬l.isToken) (h : l.Candidate text cs)
    (hp : Partition file (offset + byteLength text) cs tokens) :
    Partition file offset (text ++ cs) tokens := by
  cases hp with
  | last hgap =>
    rw [Nat.add_assoc, ← byteLength_append]
    exact .last (gap_append hl (by rwa [List.append_nil]) hgap)
  | @token _ gap text' rest kind tokens hgap hne hkind hp =>
    rw [← List.append_assoc text, Nat.add_assoc offset, ← byteLength_append]
    refine .token (gap_append hl h hgap) hne hkind ?_
    rwa [byteLength_append, ← Nat.add_assoc offset]

theorem Stops.partition (h : Stops cs taken rest) (hrest : rest = []) (file : String)
    (offset : Nat) : Partition file offset cs
      (tokensOf file offset taken ++ [endMark file (offset + byteLength cs)]) := by
  induction h generalizing offset with
  | here cs =>
    subst hrest
    exact .last .nil
  | @take l text cs rest taken hlongest hs ih =>
    obtain ⟨hmem, hcandidate⟩ := longest_candidate hlongest
    have hp := ih hrest (offset + byteLength text)
    rw [tokensOf, byteLength_append, ← Nat.add_assoc, List.append_assoc]
    cases hkind : l.kind? (String.ofList text) with
    | none =>
      have hl : ¬l.isToken := by simp [← Lexeme.kind?_isSome_iff (s := String.ofList text), hkind]
      rw [ofLexeme?, hkind]
      exact hp.skip hl hcandidate
    | some k =>
      rw [ofLexeme?, hkind]
      exact @Partition.token _ _ [] _ _ _ _ .nil hcandidate.ne_nil (Lexeme.kind?_spec hmem hkind).1 hp

/-- The place of a token in a text that begins at `offset`: its value stands where its span says. -/
def Stands (file : String) (offset : Nat) (cs : List Char) (t : Token) : Prop :=
  t.kind ≠ .eof ∧ t.value.toList ≠ [] ∧ ∃ before after, cs = before ++ t.value.toList ++ after ∧
    t.span = spanAt file (offset + byteLength before) (byteLength t.value.toList)

theorem Stands.after {t : Token} (h : Stands file (offset + byteLength text) cs t) :
    Stands file offset (text ++ cs) t := by
  obtain ⟨hkind, hne, before, after, rfl, hspan⟩ := h
  refine ⟨hkind, hne, text ++ before, after, by simp, ?_⟩
  rw [byteLength_append, ← Nat.add_assoc, hspan]

theorem Stands.start_ge {t : Token} (h : Stands file offset cs t)
    (hsize : offset + byteLength cs < UInt32.size) :
    (Position.ofByte offset file).offset ≤ t.span.start.offset := by
  obtain ⟨-, -, before, after, rfl, hspan⟩ := h
  rw [hspan]
  refine Position.ofByte_le_ofByte ?_ file (Nat.le_add_right _ _)
  rw [List.append_assoc, byteLength_append] at hsize
  omega

theorem Stands.start_lt_stop {t : Token} (h : Stands file offset cs t)
    (hsize : offset + byteLength cs < UInt32.size) : t.span.start.offset < t.span.stop.offset := by
  obtain ⟨-, hne, before, after, rfl, hspan⟩ := h
  rw [hspan]
  refine Position.ofByte_lt_ofByte ?_ file (Nat.lt_add_of_pos_right (byteLength_pos hne))
  rw [byteLength_append, byteLength_append] at hsize
  omega

theorem Stands.exists_split {source : String} {t : Token} (h : Stands file 0 source.toList t) :
    ∃ before after : String, source = before ++ t.value ++ after ∧
      t.span.start = .ofByte before.utf8ByteSize file ∧
      t.span.stop = .ofByte (before ++ t.value).utf8ByteSize file := by
  obtain ⟨-, -, before, after, hsource, hspan⟩ := h
  have hsource' : source = String.ofList before ++ t.value ++ String.ofList after := by
    rw [← String.toList_inj]
    simpa using hsource
  rw [Nat.zero_add, byteLength_eq before, byteLength_toList] at hspan
  refine ⟨_, _, hsource', ?_, ?_⟩
  · rw [hspan]
    rfl
  · rw [hspan, String.utf8ByteSize_append]
    rfl

theorem Partition.stands (h : Partition file offset cs tokens) :
    ∃ body, tokens = body ++ [endMark file (offset + byteLength cs)] ∧
      (∀ t ∈ body, Stands file offset cs t) ∧
      (offset + byteLength cs < UInt32.size →
        body.Pairwise fun t u => t.span.stop.offset ≤ u.span.start.offset) := by
  induction h with
  | last hgap => exact ⟨[], rfl, nofun, fun _ => .nil⟩
  | @token offset gap text rest kind tokens hgap hne hkind hp ih =>
    obtain ⟨body, rfl, hbody, hordered⟩ := ih
    let first : Token :=
      ⟨kind, String.ofList text, spanAt file (offset + byteLength gap) (byteLength text)⟩
    refine ⟨first :: body, ?_, List.forall_mem_cons.mpr ⟨?_, fun t ht => ?_⟩, fun hsize => ?_⟩
    · simp only [first, byteLength_append, List.cons_append, Nat.add_assoc]
    · exact ⟨hkind, by simpa [first] using hne, gap, rest, by simp [first], by simp [first]⟩
    · have hstands := hbody t ht
      rw [Nat.add_assoc, ← byteLength_append] at hstands
      rw [← List.append_assoc]
      exact hstands.after
    · have hrest : offset + byteLength gap + byteLength text + byteLength rest < UInt32.size := by
        rwa [byteLength_append, byteLength_append, ← Nat.add_assoc, ← Nat.add_assoc] at hsize
      exact List.pairwise_cons.mpr ⟨fun u hu => (hbody u hu).start_ge hrest, hordered hrest⟩

theorem exists_body_of_scan {source : String} (h : scan source file = .ok tokens) :
    Partition file 0 source.toList tokens ∧
    ∃ body, tokens = body ++ [endMark file source.utf8ByteSize] ∧
      (∀ t ∈ body, Stands file 0 source.toList t) ∧
      (source.utf8ByteSize < UInt32.size →
        body.Pairwise fun t u => t.span.stop.offset ≤ u.span.start.offset) := by
  obtain ⟨taken, hs, rfl⟩ := exists_stops_of_scan h
  have hp := hs.partition rfl file 0
  rw [Nat.zero_add] at hp
  have hstands := hp.stands
  rw [Nat.zero_add, byteLength_toList] at hstands
  refine ⟨hp, ?_⟩
  rwa [byteLength_toList]

/-- Scanning partitions the source. Each turn of the scanner takes at least one character, and after
some turns there is nothing left or nothing to take. If the source is scanned, the last token and no
other is the end, behind the last byte; every other token is not empty and stands in the source where
its span says; and only blanks and comments lie between. If offsets do not wrap, then they are numbers
of bytes, and every token ends behind its start and before the next one. -/
theorem scan_partition (source file : String) :
    (∃ taken rest, Stops source.toList taken rest ∧ (rest = [] ∨ longest rest = none)) ∧
    (∀ taken rest, Stops source.toList taken rest →
      source.toList = textOf taken ++ rest ∧ ∀ x ∈ taken, x.2 ≠ []) ∧
    ∀ tokens, scan source file = .ok tokens →
      Partition file 0 source.toList tokens ∧
      ∃ body, tokens = body ++ [endMark file source.utf8ByteSize] ∧
        (∀ t ∈ body, t.kind ≠ .eof ∧ t.value ≠ "" ∧
          ∃ before after : String, source = before ++ t.value ++ after ∧
            t.span.start = .ofByte before.utf8ByteSize file ∧
            t.span.stop = .ofByte (before ++ t.value).utf8ByteSize file) ∧
        (source.utf8ByteSize < UInt32.size →
          (∀ n ≤ source.utf8ByteSize, (Position.ofByte n file).offset.toNat = n) ∧
          (∀ t ∈ body, t.span.start.offset < t.span.stop.offset) ∧
          body.Pairwise fun t u => t.span.stop.offset ≤ u.span.start.offset) := by
  refine ⟨exists_lastStop _, fun taken rest h => ⟨h.eq_append, h.ne_nil⟩, fun tokens h => ?_⟩
  obtain ⟨hp, body, htokens, hbody, hordered⟩ := exists_body_of_scan h
  refine ⟨hp, body, htokens, fun t ht => ⟨(hbody t ht).1, ?_, (hbody t ht).exists_split⟩, fun hsize =>
    ⟨fun n hn => Position.toNat_offset_ofByte (Nat.lt_of_le_of_lt hn hsize) file, fun t ht => ?_,
      hordered hsize⟩⟩
  · simpa using (hbody t ht).2.1
  · exact (hbody t ht).start_lt_stop (by rwa [Nat.zero_add, byteLength_toList])

/-- The two tokens of a source with a comment and a blank of three bytes. -/
theorem scan_partition_comment :
    ∃ tokens body, scan "a/**/\u3000b" "t" = .ok tokens ∧
      Partition "t" 0 "a/**/\u3000b".toList tokens ∧ tokens.length = 3 ∧
      tokens = body ++ [endMark "t" 9] ∧
      (∀ t ∈ body, t.span.start.offset < t.span.stop.offset) ∧
      body.Pairwise fun t u => t.span.stop.offset ≤ u.span.start.offset := by
  have hok : ((scan "a/**/\u3000b" "t").map List.length).toOption = some 3 := by decide +kernel
  match h : scan "a/**/\u3000b" "t" with
  | .ok tokens =>
    rw [h] at hok
    obtain ⟨hp, body, htokens, -, hordered⟩ := (scan_partition _ "t").2.2 tokens h
    obtain ⟨-, hspans, hpairs⟩ := hordered (by decide +kernel)
    have hsize : "a/**/\u3000b".utf8ByteSize = 9 := by decide +kernel
    exact ⟨tokens, body, rfl, hp, Option.some.inj hok, hsize ▸ htokens, hspans, hpairs⟩
  | .error e =>
    rw [h] at hok
    cases hok

end Token

end FrontEnd
