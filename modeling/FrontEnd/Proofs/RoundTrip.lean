import FrontEnd.Proofs.Completeness
import FrontEnd.Proofs.ReadBack
import FrontEnd.Proofs.Soundness
/-!
# Reading what was written

A tree that was read is read again from its canonical tokens. Its derivation gives a derivation from
the canonical tokens (`Derives.readsBack`), and what is derived is given by a run (`Derives.gives`).
Only spans can differ: the canonical tokens do not stand where the tokens of the tree stood.
-/
namespace FrontEnd

open Grammar Phrase

variable {options : ParseOptions} {tokens rest : List Token} {file : String} {c : Crate}
  {t : ParseState}

/-- A file that was read is derived from its canonical tokens, whatever stands after the end. -/
theorem Derives.of_parse_write (h : parse tokens file options = .ok c t)
    (hrest : kindAt rest 0 = .eof) :
    Derives options.resolvePatterns .items options.maxDepth true ⟨c.write ++ rest, .empty⟩ c.items
      ⟨rest, t.toNames⟩ := by
  obtain ⟨hd, hend⟩ := parse_sound h
  exact hd.readsBack.1 options.maxDepth rest (Nat.le_refl _) (hrest.trans hend.symm)

/-- A file whose items are derived is read. -/
theorem Derives.parse_eq {n : Names} {items : List Item}
    (h : Derives options.resolvePatterns .items options.maxDepth true ⟨tokens, .empty⟩ items
      ⟨rest, n⟩) :
    ∃ c t, parse tokens file options = .ok c t ∧ c.items.map Item.bare = items.map Item.bare := by
  have hgives : Gives options options.maxDepth options.maxDepth true (crate file) ⟨tokens, .empty⟩
      ⟨rest, n⟩ (·.items.map Item.bare = items.map Item.bare) :=
    .bind (h.gives (Nat.le_refl _)) fun is his => .position fun _ => .pure his
  obtain ⟨c, t, hparse, -, hc⟩ := hgives (.initial tokens file) ⟨rfl, rfl, rfl, rfl⟩
  exact ⟨c, t, hparse, hc⟩

/-- A file that was read is read again from its canonical tokens, with the same options. The tree
is the same, up to spans. It does not matter what the file is called, nor whether the tokens go on
with an end and what stands after it. -/
theorem parse_write (h : parse tokens file options = .ok c t) (file' : String)
    (hrest : kindAt rest 0 = .eof) :
    ∃ c' t', parse (c.write ++ rest) file' options = .ok c' t' ∧ c'.bare = c.bare := by
  obtain ⟨c', t', hparse, hc⟩ := (Derives.of_parse_write h hrest).parse_eq
  exact ⟨c', t', hparse, by rw [Crate.bare, hc, Crate.bare]⟩

/-- A constant that is a match with two references in front of it, an arm without comma and a type
in parentheses. -/
theorem parse_write_matching :
    let tokens := [TokenKind.kwConst, .underscore, .colon, .openParen, .ampersand, .ampersand, .bang,
      .closeParen, .assignment, .ampersand, .ampersand, .kwMatch, .underscore, .openCurly,
      .underscore, .fatArrow, .kwBreak, .closeCurly, .semicolon].map Token.fixed
    ∃ c t, parse tokens "t" ⟨6, true⟩ = .ok c t ∧ kindAt [Token.fixed .eof] 0 = .eof ∧
      ∃ c' t', parse (c.write ++ [Token.fixed .eof]) "u" ⟨6, true⟩ = .ok c' t' ∧
        c'.bare = c.bare := by
  intro tokens
  have hok : (parse tokens "t" ⟨6, true⟩ matches .ok _ _) = true := by decide +kernel
  match h : parse tokens "t" ⟨6, true⟩ with
  | .ok c t => exact ⟨c, t, rfl, rfl, parse_write h "u" rfl⟩
  | .error e t => simp [h] at hok

end FrontEnd
