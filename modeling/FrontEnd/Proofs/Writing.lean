import FrontEnd.Proofs.WellFormed
/-!
# Writings of patterns and types

Patterns and types have grammars without context: which token follows a tree matters only at the
end, and levels of nesting only if they run out. `Writing` is that grammar, for token lists and
without a reader. A reference layer has its `&` or shares a `&&` with the layer around it, a list
may have a comma at its end, and a type may have parentheses around it; apart from these a tree has
one writing, `Pattern.spell` or `Ty.spell`.
-/
namespace FrontEnd

open Token (fixed)
open Grammar (pathSegments)

def Path.Qualified (p : Path) : Prop := ∀ t, p.segments = [t] → t.kind ≠ .identifier

/-- A pattern that begins with `mut`. -/
def Pattern.beginsWithMut : Pattern → Bool
  | identifier _ false true _ _ => true
  | _ => false

/-- A pattern that can be written. A shared reference is not right around a binding with `mut`,
which would belong to the reference. -/
inductive Pattern.Plain : Pattern → Prop
  | literal {t : Token} {sp : Span} (h : t.kind.isLiteral) : Plain (literal t false sp)
  | negated {t : Token} {sp : Span} (h : t.kind = .integer) : Plain (literal t true sp)
  | wildcard {t : Token} (h : t.kind = .underscore) : Plain (wildcard t)
  | identifier {t : Token} {byRef mutable : Bool} {sub : Option Pattern} {sp : Span}
    (h : t.kind = .identifier) (hs : ∀ p ∈ sub, Plain p) : Plain (identifier t byRef mutable sub sp)
  | reference {mutable : Bool} {p : Pattern} {sp : Span} (hp : Plain p)
    (hm : mutable = false → p.beginsWithMut = false) : Plain (reference mutable p sp)
  | path {p : Path} (h : p.WellFormed) (hq : p.Qualified) : Plain (path p)
  | tupleStruct {p : Path} {ps : List Pattern} {sp : Span} (h : p.WellFormed)
    (hps : ∀ q ∈ ps, Plain q) : Plain (tupleStruct p ps sp)

/-- Every array in a type has a literal as its length. -/
inductive Ty.LiteralLengths : Ty → Prop
  | path {p : Path} : LiteralLengths (path p)
  | reference {mutable : Bool} {a : Ty} {sp : Span} (h : LiteralLengths a) :
    LiteralLengths (reference mutable a sp)
  | array {a : Ty} {t : Token} {sp : Span} (h : LiteralLengths a) :
    LiteralLengths (array a (.literal t) sp)
  | slice {a : Ty} {sp : Span} (h : LiteralLengths a) : LiteralLengths (slice a sp)
  | tuple {as : List Ty} {sp : Span} (h : ∀ a ∈ as, LiteralLengths a) : LiteralLengths (tuple as sp)
  | never {t : Token} : LiteralLengths (never t)
  | inferred {t : Token} : LiteralLengths (inferred t)

inductive Ty.Plain : Ty → Prop
  | path {p : Path} (h : p.WellFormed) (hs : (Ty.path p).WellFormed) : Plain (path p)
  | reference {mutable : Bool} {a : Ty} {sp : Span} (h : Plain a) : Plain (reference mutable a sp)
  | array {a : Ty} {t : Token} {sp : Span} (h : Plain a) (ht : t.kind.isLiteral) :
    Plain (array a (.literal t) sp)
  | slice {a : Ty} {sp : Span} (h : Plain a) : Plain (slice a sp)
  | tuple {as : List Ty} {sp : Span} (h : ∀ a ∈ as, Plain a) : Plain (tuple as sp)
  | never {t : Token} (h : t.kind = .bang) : Plain (never t)
  | inferred {t : Token} (h : t.kind = .underscore) : Plain (inferred t)

mutual
/-- A pattern as tokens, with one `&` for each reference and no comma at the end of a list. -/
def Pattern.spell : Pattern → List Token
  | .literal token negated _ => Written.flag .dash negated ++ [token]
  | .identifier name byRef mutable sub _ =>
    Written.flag .kwRef byRef ++ (Written.flag .kwMut mutable ++
      name :: Written.after .atSign (patternSpell? sub))
  | .wildcard token => [token]
  | .reference mutable inner _ => fixed .ampersand :: (Written.flag .kwMut mutable ++ inner.spell)
  | .path path => path.write
  | .tupleStruct path elements _ =>
    path.write ++ fixed .openParen :: Written.list .closeParen (patternSpells elements)
def patternSpells : List Pattern → List (List Token)
  | [] => []
  | p :: ps => p.spell :: patternSpells ps
def patternSpell? : Option Pattern → Option (List Token)
  | none => none
  | some p => some p.spell
end

mutual
/-- A type as tokens, with one `&` for each reference, without parentheses, and with no comma at the
end of a list but in a tuple type of one element. -/
def Ty.spell : Ty → List Token
  | .path path => path.write
  | .reference mutable target _ => fixed .ampersand :: (Written.flag .kwMut mutable ++ target.spell)
  | .array element length _ =>
    fixed .openBracket :: (element.spell ++ fixed .semicolon ::
      (length.write ++ [fixed .closeBracket]))
  | .slice element _ => fixed .openBracket :: (element.spell ++ [fixed .closeBracket])
  | .tuple elements _ => fixed .openParen :: Written.tuple (tySpells elements)
  | .never token => [token]
  | .inferred token => [token]
def tySpells : List Ty → List (List Token)
  | [] => []
  | t :: ts => t.spell :: tySpells ts
end

set_option autoImplicit true in
/-- `Writing form t ts`: the tokens are a way to write the tree. -/
inductive Writing : (form : Form) → form.Tree → List Token → Prop
  -- tokens and lists
  | segment {t : Token} (h : t.kind ∈ pathSegments) : Writing .segment t [t]
  | flagSet {k : TokenKind} {t : Token} (hk : k ∈ optionalMarks) (h : t.kind = k) :
    Writing (.flag k) true [t]
  | flagUnset {k : TokenKind} (hk : k ∈ optionalMarks) : Writing (.flag k) false []
  | afterNothing {k : TokenKind} {form : Form} (hk : k ∈ optionalMarks) :
    Writing (.after k form) none []
  | afterSome {k : TokenKind} {form : Form} {a : form.Tree} {t : Token} (hk : k ∈ optionalMarks)
    (h : t.kind = k) (ha : Writing form a ts) : Writing (.after k form) (some a) (t :: ts)
  | eachNil {k : TokenKind} {form : Form} (hk : form.Joined k) : Writing (.eachAfter k form) [] []
  | eachCons {k : TokenKind} {form : Form} {a : form.Tree} {as : List form.Tree} {t : Token}
    (hk : form.Joined k) (h : t.kind = k) (ha : Writing form a ts)
    (has : Writing (.eachAfter k form) as us) :
    Writing (.eachAfter k form) (a :: as) (t :: (ts ++ us))
  | listNil {br : Bracket} {form : Form} {c : Token} (h : c.kind = br.closing) :
    Writing (.list br form) [] [c]
  | listCons {br : Bracket} {form : Form} {a : form.Tree} {as : List form.Tree}
    (hl : form = .ty ∨ form = .pattern) (ha : Writing form a ts)
    (has : Writing (.more br form) as us) :
    Writing (.list br form) (a :: as) (ts ++ us)
  | moreNil {br : Bracket} {form : Form} {c : Token} (h : c.kind = br.closing) :
    Writing (.more br form) [] [c]
  | moreComma {br : Bracket} {form : Form} {t c : Token} (ht : t.kind = .comma)
    (h : c.kind = br.closing) : Writing (.more br form) [] [t, c]
  | moreCons {br : Bracket} {form : Form} {a : form.Tree} {as : List form.Tree} {t : Token}
    (hl : form = .ty ∨ form = .pattern) (ht : t.kind = .comma) (ha : Writing form a ts)
    (has : Writing (.more br form) as us) :
    Writing (.more br form) (a :: as) (t :: (ts ++ us))
  | path {t : Token} {ts : List Token} (h : t.kind ∈ pathSegments)
    (hts : Writing (.eachAfter .pathSep .segment) ts us) : Writing .path ⟨t :: ts, sp⟩ (t :: us)
  -- types
  | tyPath {p : Path} (h : (Ty.path p).WellFormed) (hp : Writing .path p ts) :
    Writing .ty (.path p) ts
  | tyReference {t : Token} {mutable : Bool} {a : Ty} (h : t.kind = .ampersand)
    (hm : Writing (.flag .kwMut) mutable us) (ha : Writing .ty a ts) :
    Writing .ty (.reference mutable a sp) (t :: (us ++ ts))
  | tyReferences {t : Token} {mutable : Bool} {a : Ty} (h : t.kind = .andAnd)
    (hm : Writing (.flag .kwMut) mutable us) (ha : Writing .ty a ts) :
    Writing .ty (.reference false (.reference mutable a sp) sp') (t :: (us ++ ts))
  | tySlice {t c : Token} {a : Ty} (h : t.kind = .openBracket) (ha : Writing .ty a ts)
    (hc : c.kind = .closeBracket) : Writing .ty (.slice a sp) (t :: (ts ++ [c]))
  | tyArray {t s l c : Token} {a : Ty} (h : t.kind = .openBracket) (ha : Writing .ty a ts)
    (hs : s.kind = .semicolon) (hl : l.kind.isLiteral) (hc : c.kind = .closeBracket) :
    Writing .ty (.array a (.literal l) sp) (t :: (ts ++ [s, l, c]))
  | tyUnit {t c : Token} (h : t.kind = .openParen) (hc : c.kind = .closeParen) :
    Writing .ty (.tuple [] sp) [t, c]
  | tyParen {t c : Token} {a : Ty} (h : t.kind = .openParen) (ha : Writing .ty a ts)
    (hc : c.kind = .closeParen) : Writing .ty a (t :: (ts ++ [c]))
  | tyTuple {t : Token} {a : Ty} {as : List Ty} (h : t.kind = .openParen) (ha : Writing .ty a ts)
    (has : Writing (.more .round .ty) as us) (hus : kindAt us 0 = .comma) :
    Writing .ty (.tuple (a :: as) sp) (t :: (ts ++ us))
  | tyNever {t : Token} (h : t.kind = .bang) : Writing .ty (.never t) [t]
  | tyInferred {t : Token} (h : t.kind = .underscore) : Writing .ty (.inferred t) [t]
  -- patterns
  | patLiteral {t : Token} (h : t.kind.isLiteral) : Writing .pattern (.literal t false sp) [t]
  | patNegated {t l : Token} (h : t.kind = .dash) (hl : l.kind = .integer) :
    Writing .pattern (.literal l true sp) [t, l]
  | patWildcard {t : Token} (h : t.kind = .underscore) : Writing .pattern (.wildcard t) [t]
  | patReference {t : Token} {mutable : Bool} {p : Pattern} (h : t.kind = .ampersand)
    (hm : Writing (.flag .kwMut) mutable us) (hp : Writing .pattern p ts)
    (hmut : mutable = false → p.beginsWithMut = false) :
    Writing .pattern (.reference mutable p sp) (t :: (us ++ ts))
  | patReferences {t : Token} {mutable : Bool} {p : Pattern} (h : t.kind = .andAnd)
    (hm : Writing (.flag .kwMut) mutable us) (hp : Writing .pattern p ts)
    (hmut : mutable = false → p.beginsWithMut = false) :
    Writing .pattern (.reference false (.reference mutable p sp) sp') (t :: (us ++ ts))
  | patBinding {byRef mutable : Bool} {t : Token} {sub : Option Pattern}
    (hr : Writing (.flag .kwRef) byRef us) (hm : Writing (.flag .kwMut) mutable vs)
    (ht : t.kind = .identifier) (hs : Writing (.after .atSign .pattern) sub ts) :
    Writing .pattern (.identifier t byRef mutable sub sp) (us ++ (vs ++ t :: ts))
  | patPath {p : Path} (hp : Writing .path p ts) (hq : p.Qualified) : Writing .pattern (.path p) ts
  | patTuple {p : Path} {t : Token} {ps : List Pattern} (hp : Writing .path p ts)
    (ht : t.kind = .openParen) (hps : Writing (.list .round .pattern) ps us) :
    Writing .pattern (.tupleStruct p ps sp) (ts ++ t :: us)

def Form.Plain : (σ : Form) → σ.Tree → Prop
  | segment, t => t.kind ∈ pathSegments
  | flag _, _ => True
  | after _ form, a => ∀ t ∈ a, form.Plain t
  | eachAfter _ form, as | list _ form, as | more _ form, as => ∀ a ∈ as, form.Plain a
  | path, p => p.WellFormed
  | ty, t => t.Plain
  | pattern, p => p.Plain
  | _, _ => False

variable {σ : Form} {t : σ.Tree} {ts : List Token}

/-- What can be written is a tree of the languages. -/
theorem Writing.plain (h : Writing σ t ts) : σ.Plain t := by
  induction h with
  -- tokens and lists
  | segment h => exact h
  | flagSet hk h => trivial
  | flagUnset hk => trivial
  | afterNothing hk => exact nofun
  | afterSome hk h ha ih => rintro _ ⟨⟩; exact ih
  | eachNil hk => exact nofun
  | eachCons hk h ha has iha ihas => exact List.forall_mem_cons.2 ⟨iha, ihas⟩
  | listNil h => exact nofun
  | listCons hl ha has iha ihas => exact List.forall_mem_cons.2 ⟨iha, ihas⟩
  | moreNil h => exact nofun
  | moreComma ht h => exact nofun
  | moreCons hl ht ha has iha ihas => exact List.forall_mem_cons.2 ⟨iha, ihas⟩
  | path h hts ih => exact ⟨List.cons_ne_nil _ _, List.forall_mem_cons.2 ⟨h, ih⟩⟩
  -- types
  | tyPath h hp ih => exact .path ih h
  | tyReference h hm ha ihm iha => exact .reference iha
  | tyReferences h hm ha ihm iha => exact .reference (.reference iha)
  | tySlice h ha hc ih => exact .slice ih
  | tyArray h ha hs hl hc ih => exact .array ih hl
  | tyUnit h hc => exact .tuple nofun
  | tyParen h ha hc ih => exact ih
  | tyTuple h ha has hus iha ihas => exact .tuple (List.forall_mem_cons.2 ⟨iha, ihas⟩)
  | tyNever h => exact .never h
  | tyInferred h => exact .inferred h
  -- patterns
  | patLiteral h => exact .literal h
  | patNegated h hl => exact .negated hl
  | patWildcard h => exact .wildcard h
  | patReference h hm hp hmut ihm ihp => exact .reference ihp hmut
  | patReferences h hm hp hmut ihm ihp => exact .reference (.reference ihp hmut) fun _ => rfl
  | patBinding hr hm ht hs ihr ihm ihs => exact .identifier ht ihs
  | patPath hp hq ih => exact .path ih hq
  | patTuple hp ht hps ihp ihps => exact .tupleStruct ihp ihps

section Canonical

variable {k : TokenKind} {f : σ.Tree → List Token}

theorem patternSpells_eq_map (ps : List Pattern) : patternSpells ps = ps.map Pattern.spell := by
  induction ps with
  | nil => rfl
  | cons p ps ih => simp [patternSpells, ih]

theorem patternSpell?_eq_map (p : Option Pattern) : patternSpell? p = p.map Pattern.spell := by
  cases p <;> rfl

theorem tySpells_eq_map (ts : List Ty) : tySpells ts = ts.map Ty.spell := by
  induction ts with
  | nil => rfl
  | cons t ts ih => simp [tySpells, ih]

namespace Writing

theorem flag (hk : k ∈ optionalMarks) (set : Bool) : Writing (.flag k) set (Written.flag k set) := by
  cases set with
  | false => exact .flagUnset hk
  | true => exact .flagSet hk rfl

theorem after {a : Option σ.Tree} (hk : k ∈ optionalMarks) (h : ∀ t ∈ a, Writing σ t (f t)) :
    Writing (.after k σ) a (Written.after k (a.map f)) := by
  cases a with
  | none => exact .afterNothing hk
  | some t => exact .afterSome hk rfl (h t rfl)

theorem more (br : Bracket) {as : List σ.Tree} (hσ : σ = .ty ∨ σ = .pattern) (h : ∀ a ∈ as, Writing σ a (f a)) :
    Writing (.more br σ) as (Written.more br.closing (as.map f)) := by
  induction as with
  | nil => exact .moreNil rfl
  | cons a as ih =>
    obtain ⟨ha, has⟩ := List.forall_mem_cons.1 h
    simpa [Written.more] using Writing.moreCons (t := fixed .comma) hσ rfl ha (ih has)

theorem list (br : Bracket) {as : List σ.Tree} (hσ : σ = .ty ∨ σ = .pattern) (h : ∀ a ∈ as, Writing σ a (f a)) :
    Writing (.list br σ) as (Written.list br.closing (as.map f)) := by
  cases as with
  | nil => exact .listNil rfl
  | cons a as =>
    obtain ⟨ha, has⟩ := List.forall_mem_cons.1 h
    exact .listCons hσ ha (more br hσ has)

theorem eachSegment {ts : List Token} (h : ∀ t ∈ ts, t.kind ∈ pathSegments) :
    Writing (.eachAfter .pathSep .segment) ts (Written.eachAfter .pathSep (ts.map ([·]))) := by
  induction ts with
  | nil => exact .eachNil (.inl ⟨rfl, rfl⟩)
  | cons t ts ih =>
    obtain ⟨ht, hts⟩ := List.forall_mem_cons.1 h
    exact .eachCons (t := fixed .pathSep) (.inl ⟨rfl, rfl⟩) rfl (.segment ht) (ih hts)

theorem ofPath {p : Path} (h : p.WellFormed) : Writing .path p p.write := by
  obtain ⟨_ | ⟨t, ts⟩, sp⟩ := p
  · exact absurd rfl h.1
  · obtain ⟨ht, hts⟩ := List.forall_mem_cons.1 h.2
    exact .path ht (eachSegment hts)

theorem tuple {as : List Ty} {sp : Span} (h : ∀ a ∈ as, Writing .ty a a.spell) :
    Writing .ty (.tuple as sp) (fixed .openParen :: Written.tuple (as.map Ty.spell)) := by
  match as with
  | [] => exact .tyUnit rfl rfl
  | [a] =>
    have hcomma : Writing (.more .round .ty) [] [fixed .comma, fixed .closeParen] := .moreComma rfl rfl
    exact .tyTuple rfl (h a (List.mem_singleton_self a)) hcomma rfl
  | a :: a' :: as =>
    obtain ⟨ha, has⟩ := List.forall_mem_cons.1 h
    exact .tyTuple rfl ha (more .round (.inl rfl) has) rfl

end Writing

/-- Every pattern of the language has its canonical writing. -/
theorem Pattern.Plain.writing {p : Pattern} (h : p.Plain) : Writing .pattern p p.spell := by
  induction h with
  | literal h => exact .patLiteral h
  | negated h => exact .patNegated rfl h
  | wildcard h => exact .patWildcard h
  | identifier h hs ih =>
    rw [spell, patternSpell?_eq_map]
    exact .patBinding (.flag (by decide) _) (.flag (by decide) _) h (.after (by decide) ih)
  | reference hp hm ih => exact .patReference rfl (.flag (by decide) _) ih hm
  | path h hq => exact .patPath (.ofPath h) hq
  | tupleStruct h hps ih =>
    rw [spell, patternSpells_eq_map]
    exact .patTuple (.ofPath h) rfl (.list .round (.inr rfl) ih)

/-- Every type of the language has its canonical writing. -/
theorem Ty.Plain.writing {a : Ty} (h : a.Plain) : Writing .ty a a.spell := by
  induction h with
  | path h hs => exact .tyPath hs (.ofPath h)
  | reference h ih => exact .tyReference rfl (.flag (by decide) _) ih
  | array h ht ih => exact .tyArray rfl ih rfl ht rfl
  | slice h ih => exact .tySlice rfl ih rfl
  | tuple h ih =>
    rw [spell, tySpells_eq_map]
    exact .tuple ih
  | never h => exact .tyNever h
  | inferred h => exact .tyInferred h

end Canonical

end FrontEnd
