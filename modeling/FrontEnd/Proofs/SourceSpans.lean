import FrontEnd.Proofs.EndOfInput
import FrontEnd.Proofs.LiteralNodes
import FrontEnd.Proofs.SpanRules
/-!
# Spans of a source file

The items of a file lie on all its tokens, in their order. So every node in them lies on the tokens
that it was read from, and spans nest as nodes do.
-/
namespace FrontEnd

open Grammar Phrase

variable {source file : String} {options : ParseOptions} {c : Crate} {s : ParseState}
  {tokens : List Token}

/-- The tokens of a source follow each other in it. -/
theorem Token.scan_inOrder (hsize : source.utf8ByteSize < UInt32.size)
    (h : scan source file = .ok tokens) :
    ∃ body, tokens = body ++ [endMark file source.utf8ByteSize] ∧ Endless body ∧ InOrder body ∧
      ∀ t ∈ body, Position.origin file ≤ t.span.start ∧
        t.span.stop ≤ .ofByte source.utf8ByteSize file := by
  obtain ⟨-, body, rfl, hbody, hordered⟩ := exists_body_of_scan h
  have hfile : ∀ t ∈ body, t.span.start.file = file ∧ t.span.stop.file = file := by
    intro t ht
    obtain ⟨before, after, -, hstart, hstop⟩ := (hbody t ht).exists_split
    exact ⟨hstart ▸ rfl, hstop ▸ rfl⟩
  refine ⟨body, rfl, fun t ht => (hbody t ht).1, ⟨fun t ht => ?_, ?_⟩, fun t ht => ⟨?_, ?_⟩⟩
  · obtain ⟨hstart, hstop⟩ := hfile t ht
    refine ⟨hstart.trans hstop.symm, UInt32.le_of_lt ((hbody t ht).start_lt_stop ?_)⟩
    rwa [Nat.zero_add, byteLength_toList]
  · refine (hordered hsize).imp_of_mem fun ht hu h => ⟨?_, h⟩
    exact (hfile _ ht).2.trans (hfile _ hu).1.symm
  · exact ⟨(hfile t ht).1.symm, UInt32.zero_le⟩
  · obtain ⟨before, after, hsource, -, hstop⟩ := (hbody t ht).exists_split
    refine ⟨(hfile t ht).2, ?_⟩
    rw [hstop]
    refine Position.ofByte_le_ofByte hsize file ?_
    rw [hsource, String.utf8ByteSize_append (s := before ++ t.value)]
    exact Nat.le_add_right _ _

/-- A file is read up to the token that ends it, and there the crate ends. -/
theorem parse_ahead {body : List Token} {z : Token} (hbody : Endless body) (hz : z.kind = .eof)
    (h : parse (body ++ [z]) file options = .ok c s) :
    s.cursor.ahead = [z] ∧ c.span = ⟨.origin file, z.span.start⟩ := by
  have he : IsEnd [z] := fun t ht => Option.some.inj ht ▸ hz
  have hstart : (Lockstep.ends options he he).states (.initial (body ++ [z]) file)
    (.initial (body ++ [z]) file) := ⟨rfl, rfl, rfl, [], body, 0, file, hbody, rfl, rfl⟩
  obtain ⟨items, items', t, t', ht, -, -, hs⟩ | ⟨x, x', t, t', ht, -⟩ :=
    (Lockstep.ends options he he).parse_alike hstart
  · obtain ⟨rfl, rfl⟩ := EStateM.Result.ok.inj (h.symm.trans ht)
    have hahead := (hs.cursors.ahead_of_end (parse_sound h).2).1
    refine ⟨hahead, ?_⟩
    simp only [Cursor.position, hahead]
  · exact nomatch h.symm.trans ht

/-- The items of a file lie on the tokens before the one that ends it. -/
theorem laid_items (h : parse tokens file options = .ok c s) :
    ∃ w early, tokens = w ++ s.cursor.ahead ∧ Laid (c.items.map .item) w early := by
  let pos : Position := (tokens.head?.map fun t => t.span.start).getD (.origin file)
  have hrow : (ParseState.initial tokens file).Row [] pos [] tokens :=
    ⟨⟨[], none, rfl, .nil, fun t ht => by simp_all [pos]⟩, rfl, rfl⟩
  have hcrate : Lays options options.maxDepth (crate file) pos [] tokens fun c qs _ =>
      qs = c.items.map .item :=
    .spelled (spells_declaredItem (Goal.spells options _)).untilKind fun items j =>
      .position fun _ _ => .pure List.map_eq_flatMap.symm
  obtain ⟨qs, j, ⟨⟨w, early, hpassed, hlaid, -⟩, hahead, -⟩, rfl⟩ := hcrate _ _ c s hrow h
  have hkept := ((tokens_invariant options).read (crate file)).of_ok h
  refine ⟨w, early, ?_, hlaid⟩
  simpa [Cursor.tokens, hpassed, ParseState.initial, Cursor.ofList] using hkept.symm

/-- The items of a source lie on all its tokens. -/
theorem parseSource_laid (hsize : source.utf8ByteSize < UInt32.size)
    (h : parseSource source file = .ok c) :
    c.span = ⟨.origin file, .ofByte source.utf8ByteSize file⟩ ∧
    ∃ tokens early, Token.scan source file = .ok (tokens ++ [.endMark file source.utf8ByteSize]) ∧
      Laid (c.items.map .item) tokens early ∧ Token.InOrder tokens ∧
      c.span.Holds (Piece.spans (c.items.map .item)) := by
  obtain ⟨tokens, s, hscan, hparse⟩ := parse_of_parseSource h
  obtain ⟨body, rfl, hbody, horder, hinside⟩ := Token.scan_inOrder hsize hscan
  obtain ⟨hahead, hspan⟩ := parse_ahead hbody rfl hparse
  obtain ⟨w, early, htokens, hlaid⟩ := laid_items hparse
  obtain rfl : body = w := List.append_cancel_right (hahead ▸ htokens)
  have harranged := hlaid.arranged horder
  refine ⟨hspan, body, early, hscan, hlaid, horder, ?_, fun sp hsp => ?_, harranged.increasing⟩
  · rw [hspan]
    exact ⟨rfl, UInt32.zero_le⟩
  · obtain ⟨⟨t, ht, hstart⟩, ⟨u, hu, hstop⟩, -⟩ := harranged.on sp hsp
    rw [hspan, hstart, hstop]
    exact ⟨(hinside t ht).1, (hinside u hu).2⟩

/-- A name that stands for a field and its value is the value. -/
theorem Node.Derived.shorthand {f : FieldValue} {resolve : Bool}
    (h : (Node.field f).Derived resolve) (hf : f.shorthand) : f.value = .path (.ofToken f.name) := by
  obtain ⟨ℓ, b, x, y, hd⟩ := h
  cases hd with
  | fieldLong => cases hf
  | fieldShort => rfl

/-- Spans nest, and follow each other, in a source so short that offsets do not wrap. The crate covers
the whole source, and its items lie on all tokens. Every node in them that has a span lies on the
tokens that it was read from: it begins with the first and ends with the last, or, if that closes a
type in parentheses, perhaps where the type does. All that it is made of lies in its span, one piece
after the other. -/
theorem parseSource_spans (hsize : source.utf8ByteSize < UInt32.size)
    (h : parseSource source file = .ok c) :
    c.span = ⟨.origin file, .ofByte source.utf8ByteSize file⟩ ∧
    c.span.stop.offset.toNat = source.utf8ByteSize ∧
    c.span.Holds (Piece.spans (c.items.map .item)) ∧
    ∃ tokens early, Token.scan source file = .ok (tokens ++ [.endMark file source.utf8ByteSize]) ∧
      Laid (c.items.map .item) tokens early ∧
      ∀ i ∈ c.items, ∀ n : Node, n.Within (.item i) → n.Placed tokens ∧
        (∀ m ∈ n.children, (∀ sp, m.span? = some sp → .node sp m ∈ n.pieces) ∧
          (m.span? = none → m.pieces ⊆ n.pieces)) ∧
        ∀ f, n = .field f → f.shorthand → f.value = .path (.ofToken f.name) := by
  obtain ⟨hspan, tokens, early, hscan, hlaid, horder, hholds⟩ := parseSource_laid hsize h
  have hstop : c.span.stop.offset.toNat = source.utf8ByteSize := by
    rw [hspan]
    exact Position.toNat_offset_ofByte hsize file
  refine ⟨hspan, hstop, hholds, tokens, early, hscan, hlaid,
    fun i hi n hn => ⟨?_, fun m hm => ?_, ?_⟩⟩
  · exact hlaid.allPlaced horder i.span (.item i) (List.mem_map_of_mem hi) rfl n hn
  · exact ⟨fun sp => Node.mem_pieces hm, Node.pieces_subset hm⟩
  · rintro f rfl
    obtain ⟨tokens, s, -, hparse⟩ := parse_of_parseSource h
    have hderived : (Node.item i).AllDerived true :=
      (parse_sound hparse).1.nodes_derived (.item i) (List.mem_map_of_mem hi)
    exact (hderived _ hn).shorthand

def Crate.constantValue? : Crate → Option Expr
  | ⟨[.constant ⟨_, _, some e, _⟩], _⟩ => some e
  | _ => none

theorem Crate.within_constantValue? {e : Expr} (h : c.constantValue? = some e) :
    ∃ i ∈ c.items, (Node.expr e).Within (.item i) := by
  unfold constantValue? at h
  split at h
  · next name t e' sp sp' =>
    obtain rfl := Option.some.inj h
    let value : ConstantDecl := ⟨name, t, some e', sp⟩
    have hvalue : (Node.expr e').Within (.constant value) :=
      .inChild (by simp [value, Node.children]) (.self _)
    have hitem : (Node.expr e').Within (.item (.constant value)) :=
      .inChild (by simp [Node.children, Item.children]) hvalue
    exact ⟨_, List.mem_singleton.mpr rfl, hitem⟩
  · cases h

/-- A cast to a type in parentheses ends before the one that closes them. -/
theorem parseSource_spans_cast :
    let source := "const A: u8 = a as (u8);"
    source.utf8ByteSize < UInt32.size ∧
    ∃ c e tokens, parseSource source "t" = .ok c ∧ c.constantValue? = some e ∧
      e.span = ⟨⟨14, "t"⟩, ⟨22, "t"⟩⟩ ∧
      Token.scan source "t" = .ok (tokens ++ [.endMark "t" 24]) ∧ (Node.expr e).Placed tokens := by
  intro source
  have hok : (parseSource source "t").toOption.bind (fun c => c.constantValue?.map Expr.span) =
      some ⟨⟨14, "t"⟩, ⟨22, "t"⟩⟩ := by decide +kernel
  obtain ⟨c, hc, hspan⟩ := Option.bind_eq_some_iff.mp hok
  obtain ⟨e, he, hspan⟩ := Option.map_eq_some_iff.mp hspan
  have h : parseSource source "t" = .ok c := by
    cases h : parseSource source "t" with
    | error e => simp [h, Except.toOption] at hc
    | ok c' => simpa [h, Except.toOption] using hc
  obtain ⟨-, -, -, tokens, -, hscan, -, hnodes⟩ := parseSource_spans (by decide +kernel) h
  obtain ⟨i, hi, hwithin⟩ := Crate.within_constantValue? he
  exact ⟨by decide +kernel, c, e, tokens, h, he, hspan, hscan, (hnodes i hi _ hwithin).1⟩

theorem byteLength_replicate (n : Nat) : byteLength (List.replicate n ' ') = n := by
  induction n with
  | zero => rfl
  | succ n ih =>
    rw [List.replicate_succ, byteLength, ih, Nat.add_comm]
    rfl

/-- Blanks at the front of a source have no tokens. -/
theorem Token.scan_blanks {n : Nat} (hn : n ≠ 0) {rest : List Char} (hends : Ends Text.isBlank rest)
    (file : String) :
    scan (String.ofList (List.replicate n ' ' ++ rest)) file = scanFrom file 0 n rest := by
  have hblank : Lexeme.longest (List.replicate n ' ' ++ rest) = some (.blank, _) :=
    Lexeme.longest_blank (by simpa using hn) (fun c hc => List.eq_of_mem_replicate hc ▸ rfl) hends
  rw [scan, String.toList_ofList, scanFrom_take hblank, byteLength_replicate, Nat.zero_add]
  cases scanFrom file 0 n rest <;> rfl

/-- Behind so many blanks that offsets wrap within it a struct ends before it starts, and the crate
ends before the source does. -/
theorem parseSource_spans_wrapped :
    let source := String.ofList (List.replicate (UInt32.size - 3) ' ' ++ "struct S;".toList)
    ∃ c, parseSource source "t" = .ok c ∧ c.span.stop.offset.toNat ≠ source.utf8ByteSize ∧
      ∃ i ∈ c.items, ¬i.span.start ≤ i.span.stop := by
  intro source
  have hends : Ends Text.isBlank "struct S;".toList := by
    intro c hc
    obtain rfl : 's' = c := Option.some.inj hc
    rfl
  have hscan : Token.scan source "t" = Token.scanFrom "t" 0 (UInt32.size - 3) "struct S;".toList :=
    Token.scan_blanks (by decide) hends "t"
  have hok : (parseSource source "t").toOption.map (fun c => (c.span, c.items.map Item.span)) =
      some (⟨⟨0, "t"⟩, ⟨6, "t"⟩⟩, [⟨⟨4294967293, "t"⟩, ⟨6, "t"⟩⟩]) := by
    rw [parseSource, hscan]
    decide +kernel
  obtain ⟨c, hc, hspans⟩ := Option.map_eq_some_iff.mp hok
  obtain ⟨hspan, hitems⟩ := Prod.mk.inj hspans
  have hsize : source.utf8ByteSize = UInt32.size - 3 + byteLength "struct S;".toList := by
    rw [← byteLength_eq, byteLength_append, byteLength_replicate]
  refine ⟨c, ok_of_toOption hc, ?_, ?_⟩
  · rw [hspan, hsize]
    decide
  · have hmem : ⟨⟨4294967293, "t"⟩, ⟨6, "t"⟩⟩ ∈ c.items.map Item.span := by simp [hitems]
    obtain ⟨i, hi, hspan⟩ := List.mem_map.mp hmem
    refine ⟨i, hi, fun hle => ?_⟩
    rw [hspan] at hle
    exact absurd hle.2 (by decide)

end FrontEnd
