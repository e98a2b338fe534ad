import FrontEnd.Proofs.LockedRules
import FrontEnd.Proofs.Scanning
import FrontEnd.Proofs.ScopeWalk
import Mathlib.Data.List.Forall2
import Mathlib.Logic.Embedding.Basic
/-!
# Renaming

A program does not depend on which names its author chose. With other names in the place of the ones
written, different ones for different ones, it is read to the same tree with the other names in it,
or fails at the same place with the same error.

Names count when they are looked up in the scopes, so the two readings are compared with what the
scopes answer for each name. Keys that are no names, such as that of an impl, are not compared: no
pattern asks for them.
-/
namespace FrontEnd

def isWord : List Char → Bool
  | [] => false
  | c :: cs => Lexeme.isWordStart c && cs.all Lexeme.isWordPart

/-- Whether a text is an identifier: a word that is not reserved. -/
def isName (text : String) : Bool := isWord text.toList && (TokenKind.ofReserved? text).isNone

abbrev Name := { text : String // isName text = true }

theorem isWord_iff_candidate (cs : List Char) : isWord cs = true ↔ Lexeme.word.Candidate cs [] := by
  cases cs with
  | nil => simp [isWord, Lexeme.Candidate]
  | cons c cs =>
    rw [isWord, Bool.and_eq_true, List.all_eq_true]
    constructor
    · rintro ⟨hc, hcs⟩
      exact ⟨c, cs, rfl, hc, hcs, nofun⟩
    · rintro ⟨_, _, ⟨⟩, hc, hcs, -⟩
      exact ⟨hc, hcs⟩

namespace Renaming

variable (ρ : Name ↪ Name)

/-- The text after the renaming: another name for a name, any other text as it is. -/
def text (s : String) : String := if h : isName s = true then ρ ⟨s, h⟩ else s

def view : View where
  position place := place
  text kind s := if kind = .identifier then text ρ s else s
  constants := true

variable {ρ} {s : String}

theorem text_name (x : Name) : text ρ x = ρ x := dif_pos x.2

@[simp] theorem isName_text : isName (text ρ s) = isName s := by
  unfold text
  split
  · rename_i h
    rw [(ρ ⟨s, h⟩).2, h]
  · rfl

@[simp] theorem isName_view {kind : TokenKind} : isName ((view ρ).text kind s) = isName s := by
  simp only [view]
  split <;> simp

/-- A text is renamed to what a name is renamed to only if it is this name. -/
theorem eq_name_iff {x : Name} : s = x ↔ text ρ s = ρ x := by
  constructor
  · rintro rfl
    exact text_name x
  · intro h
    have hs : isName s = true := by rw [← isName_text (ρ := ρ), h]; exact (ρ x).2
    have hname : ρ ⟨s, hs⟩ = ρ x := Subtype.ext ((text_name ⟨s, hs⟩).symm.trans h)
    exact congrArg Subtype.val (ρ.injective hname)

end Renaming

namespace Token

/-- A token is an identifier just if its text is one. -/
def WellKinded (t : Token) : Prop := t.kind = .identifier ↔ isName t.value = true

instance (t : Token) : Decidable t.WellKinded := inferInstanceAs (Decidable (_ ↔ _))

theorem kindOf_name {s : String} (h : isName s = true) : Lexeme.kindOf s = .identifier := by
  obtain ⟨hword, hreserved⟩ := Bool.and_eq_true_iff.mp h
  have hcandidate := (isWord_iff_candidate _).mp hword
  have hkind : Lexeme.word.kind? (String.ofList s.toList) = some .identifier := by
    rw [String.ofList_toList, Lexeme.kind?, TokenKind.ofWord, Option.isNone_iff_eq_none.mp hreserved]
    rfl
  rw [← String.ofList_toList (s := s)]
  exact (hcandidate.kind?_eq (by simp [Lexeme.classes]) hkind).symm

/-- Every token that the scanner makes has the kind that its text calls for. -/
theorem wellKinded_of_scan {source file : String} {tokens : List Token}
    (h : scan source file = .ok tokens) {t : Token} (ht : t ∈ tokens) (heof : t.kind ≠ .eof) :
    t.WellKinded := by
  obtain ⟨l, before, after, hsource, hl, hcandidate, hkind⟩ := exists_lexeme_of_scan h ht heof
  constructor
  · intro hid
    have hunspelt := Lexeme.kind?_unspelt hl hkind (by simp [hid])
    rw [hid] at hunspelt
    obtain ⟨rfl, -, hreserved⟩ := hunspelt.resolve_right (by simp)
    have hcut : Lexeme.word.Candidate t.value.toList [] := Lexeme.Candidate.cut hcandidate
    rw [isName, (isWord_iff_candidate _).mpr hcut, hreserved]
    rfl
  · intro hname
    rw [← String.ofList_toList (s := t.value)] at hkind
    rw [hcandidate.kind?_eq hl hkind, String.ofList_toList, kindOf_name hname]

end Token

/-- Shows every text with a mark before it, which is `odd` where the kind does not fit the text. If the
mark is another in the one reading than in the other, tokens that look alike have kinds that fit, and
something is known of the names that they declare. -/
def View.marked (odd : Char) (text : TokenKind → String → String) : View where
  position place := place
  text kind s :=
    String.ofList
      ((if kind ≠ .eof ∧ (kind = .identifier ↔ isName s = true) then '+' else odd) ::
        (text kind s).toList)
  constants := true

def View.unmarked : View where
  position place := place
  text _ s := String.ofList s.toList.tail
  constants := true

theorem View.unmarked_comp_marked (odd : Char) (text : TokenKind → String → String) :
    View.unmarked.comp (.marked odd text) = ⟨fun place => place, text, true⟩ := by
  simp [View.comp, unmarked, marked]

namespace Renaming

variable {ρ : Name ↪ Name}

/-- Two values that are the same but for the renaming, with tokens of fitting kinds. -/
abbrev Alike (ρ : Name ↪ Name) {α : Type} [Viewed α] (a b : α) : Prop :=
  View.Alike (.marked '*' (view ρ).text) (.marked '-' fun _ s => s) a b

/-- Tokens that look alike are the same but for the renaming, and of a kind that fits. -/
theorem alike_token_iff {t t' : Token} : Alike ρ t t' ↔
    (t.kind ≠ .eof ∧ t.WellKinded) ∧ t' = t.view (view ρ) := by
  obtain ⟨kind, s, start, stop⟩ := t
  obtain ⟨kind', s', start', stop'⟩ := t'
  simp only [Alike, View.Alike, Viewed.view, Token.view, View.marked, View.span, Token.mk.injEq,
    String.ofList_inj, List.cons.injEq, String.toList_inj, Token.WellKinded]
  constructor
  · rintro ⟨rfl, ⟨hmark, rfl⟩, ⟨⟩⟩
    split at hmark
    · exact ⟨‹_›, rfl, rfl, rfl⟩
    · split at hmark <;> cases hmark
  · rintro ⟨h, rfl, rfl, ⟨⟩⟩
    rw [if_pos h, if_pos ⟨h.1, h.2.trans (by rw [isName_view])⟩]
    exact ⟨rfl, ⟨rfl, rfl⟩, rfl⟩

theorem Alike.eq_name_iff {t t' : Token} (h : Alike ρ t t') (x : Name) :
    t.value = x ↔ t'.value = ρ x := by
  obtain ⟨⟨-, hfits⟩, rfl⟩ := alike_token_iff.mp h
  rw [Token.WellKinded] at hfits
  simp only [Token.view, view]
  split
  · exact Renaming.eq_name_iff
  · rename_i hkind
    have hno : isName t.value ≠ true := fun hname => hkind (hfits.mpr hname)
    exact ⟨fun hx => absurd (hx ▸ x.2) hno, fun hx => absurd (hx ▸ (ρ x).2) hno⟩

end Renaming

open Renaming

variable {ρ : Name ↪ Name}

/-- Two symbols under the same key but for the renaming, or under keys that are no names, of which a
pattern can mean both or none. -/
structure Symbol.Renamed (ρ : Name ↪ Name) (s s' : Symbol) : Prop where
  constant_eq : s.isPatternConstant = s'.isPatternConstant
  key_iff : ∀ x : Name, s.key = x ↔ s'.key = ρ x

theorem Item.name?_view (v : View) (i : Item) : (i.view v).name? = i.name?.map (Token.view v) := by
  cases i with
  | function f => cases f; rfl
  | constant c => cases c; rfl
  | _ => rfl

theorem Member.name_view (v : View) (m : Member) : (m.view v).name = m.name.view v := by
  cases m with
  | function f => cases f; rfl
  | constant c => cases c; rfl

mutual
theorem Pattern.bindings_view (v : View) (h : v.constants = true) : ∀ p : Pattern,
    (p.view v).bindings = p.bindings.map fun b => ⟨b.name.view v, b.mutable⟩
  | .literal _ _ _ | .wildcard _ => rfl
  | .path p => by rw [Pattern.view_path v p h]; rfl
  | .identifier _ _ _ none _ => rfl
  | .identifier _ _ _ (some sub) _ => by
    simp [Pattern.view, patternView?, bindings, sub.bindings_view v h]
  | .reference _ inner _ => inner.bindings_view v h
  | .tupleStruct _ elements _ => Pattern.bindingsOfList_view v h elements
theorem Pattern.bindingsOfList_view (v : View) (h : v.constants = true) : ∀ ps : List Pattern,
    bindingsOfList (patternViews v ps) = (bindingsOfList ps).map fun b => ⟨b.name.view v, b.mutable⟩
  | [] => rfl
  | p :: ps => by
    simp only [patternViews, bindingsOfList, p.bindings_view v h, bindingsOfList_view v h ps,
      List.map_append]
end

namespace Symbol

theorem isPatternConstant_view (v : View) (i : Item) :
    (ofItem (i.view v)).isPatternConstant = (ofItem i).isPatternConstant := by
  cases i with
  | function f => cases f; rfl
  | constant c => cases c; rfl
  | _ => rfl

theorem isPatternConstant_member_view (v : View) (m : Member) :
    (ofMember (m.view v)).isPatternConstant = (ofMember m).isPatternConstant := by
  cases m with
  | function f => cases f; rfl
  | constant c => cases c; rfl

theorem key_ofItem {i : Item} {t : Token} (h : i.name? = some t) : (ofItem i).key = t.value := by
  cases i <;> cases h <;> rfl

theorem key_ofMember (m : Member) : (ofMember m).key = m.name.value := by
  cases m <;> rfl

/-- The key of an impl has a blank in it. -/
theorem isName_impl (head : String) : isName ("impl " ++ head) = false := by
  have himpl : "impl ".toList = ['i', 'm', 'p', 'l', ' '] := by decide
  have hblank : Lexeme.isWordPart ' ' = false := by decide
  simp [isName, isWord, himpl, hblank]

theorem isName_key_ofItem {i : Item} (h : i.name? = none) : isName (ofItem i).key = false := by
  cases i with
  | impl traitName target members span =>
    cases traitName with
    | none => exact isName_impl _
    | some name =>
      have hkey : (ofItem (.impl (some name) target members span)).key =
          "impl " ++ (name.value ++ (" for " ++ target.sexpr.render)) := by
        simp only [ofItem, Option.map_some, key, String.append_assoc]
        rfl
      rw [hkey, isName_impl]
  | _ => cases h

namespace Renamed

theorem of_tokens {s s' : Symbol} {t t' : Token} (h : Alike ρ t t')
    (hconstant : s.isPatternConstant = s'.isPatternConstant) (hkey : s.key = t.value)
    (hkey' : s'.key = t'.value) : s.Renamed ρ s' :=
  ⟨hconstant, fun x => by rw [hkey, hkey', h.eq_name_iff]⟩

theorem of_no_names {s s' : Symbol} (hconstant : s.isPatternConstant = s'.isPatternConstant)
    (hkey : isName s.key = false) (hkey' : isName s'.key = false) : s.Renamed ρ s' := by
  refine ⟨hconstant, fun x => ⟨fun h => ?_, fun h => ?_⟩⟩
  · rw [h, x.2] at hkey
    cases hkey
  · rw [h, (ρ x).2] at hkey'
    cases hkey'

theorem ofItem {i i' : Item} (h : Alike ρ i i') : (ofItem i).Renamed ρ (ofItem i') := by
  have h : i.view _ = i'.view _ := h
  have hconstant := congrArg (fun i => (Symbol.ofItem i).isPatternConstant) h
  have hname := congrArg Item.name? h
  simp only [isPatternConstant_view] at hconstant
  rw [Item.name?_view, Item.name?_view] at hname
  match hi : i.name?, hi' : i'.name? with
  | none, none => exact of_no_names hconstant (isName_key_ofItem hi) (isName_key_ofItem hi')
  | some t, some t' =>
    rw [hi, hi'] at hname
    exact of_tokens (Option.some.inj hname) hconstant (key_ofItem hi) (key_ofItem hi')
  | none, some _ | some _, none => simp [hi, hi'] at hname

theorem ofMember {m m' : Member} (h : Alike ρ m m') : (ofMember m).Renamed ρ (ofMember m') := by
  have h : m.view _ = m'.view _ := h
  have hconstant := congrArg (fun m => (Symbol.ofMember m).isPatternConstant) h
  have hname := congrArg Member.name h
  simp only [isPatternConstant_member_view] at hconstant
  rw [Member.name_view, Member.name_view] at hname
  exact of_tokens hname hconstant (key_ofMember m) (key_ofMember m')

theorem ofPattern {p p' : Pattern} (h : Alike ρ p p') (a a' : Option Ty) :
    List.Forall₂ (Renamed ρ) (ofPattern p a) (ofPattern p' a') := by
  have h : p.view _ = p'.view _ := h
  have hbindings := congrArg Pattern.bindings h
  rw [Pattern.bindings_view _ rfl, Pattern.bindings_view _ rfl, ← List.forall₂_eq_eq_eq,
    List.forall₂_map_left_iff, List.forall₂_map_right_iff] at hbindings
  have hvar {b b' : Pattern.Binding} {a a' : Option Ty}
      (hb : (⟨b.name.view _, b.mutable⟩ : Pattern.Binding) = ⟨b'.name.view _, b'.mutable⟩) :
      (Symbol.var b.name.value a b.mutable).Renamed ρ (.var b'.name.value a' b'.mutable) :=
    of_tokens (congrArg Pattern.Binding.name hb) rfl rfl rfl
  unfold Symbol.ofPattern
  generalize p.bindings = bs, p'.bindings = bs' at hbindings ⊢
  cases hbindings with
  | nil => exact .nil
  | cons hb hbs =>
    refine .cons (hvar hb) ?_
    rw [List.forall₂_map_left_iff, List.forall₂_map_right_iff]
    exact hbs.imp fun _ _ hb => hvar hb

end Renamed

end Symbol

namespace Renaming

/-- What a scope answers for the name in the place of each name: whether it has a symbol there, and
whether a pattern can mean it. -/
def answers (f : Name → Name) (scope : String → Option Symbol) (x : Name) : Option Bool :=
  (scope (f x)).map Symbol.isPatternConstant

theorem answers_update {scope scope' : String → Option Symbol} {s s' : Symbol}
    (h : answers id scope = answers ρ scope') (hs : s.Renamed ρ s') :
    answers id (Function.update scope s.key (some s)) =
      answers ρ (Function.update scope' s'.key (some s')) := by
  funext x
  have hx := congrFun h x
  simp only [answers, Function.update_apply, id, eq_comm (b := s.key), eq_comm (b := s'.key),
    ← hs.key_iff x] at hx ⊢
  split
  · simp [hs.constant_eq]
  · exact hx

end Renaming

/-- Two tables with as many scopes, which answer alike but for the renaming. -/
structure ScopeTable.Renamed (ρ : Name ↪ Name) (t t' : ScopeTable) : Prop where
  linked : t.Linked
  linked' : t'.Linked
  answers_eq : t.contents.map (answers id) = t'.contents.map (answers ρ)

namespace ScopeTable

variable {t t' : ScopeTable} {s s' : Symbol}

theorem linked_define (h : t.Linked) (name : String) (symbol : Symbol) :
    (t.define name symbol).2.Linked := by
  unfold define
  split
  · exact h
  · exact linked_insert h name symbol

/-- No name tells of a symbol under a key that is none. -/
theorem answers_define {f : Name → Name} (hkey : ∀ x, s.key ≠ f x) :
    (t.define s.key s).2.contents.map (answers f) = t.contents.map (answers f) := by
  have hlocal : answers f (Function.update t.lookupLocal s.key (some s)) = answers f t.lookupLocal := by
    funext x
    rw [answers, Function.update_of_ne (hkey x).symm, answers]
  unfold define
  split
  · rfl
  · rw [contents_insert, t.contents_eq]
    simp [hlocal]

namespace Renamed

variable (h : t.Renamed ρ t')

theorem empty : ScopeTable.empty.Renamed ρ .empty :=
  ⟨Walk.Follows.start.linked, Walk.Follows.start.linked, rfl⟩

include h

theorem depth_eq : t.depth = t'.depth := by
  simpa [contents, depth] using congrArg List.length h.answers_eq

theorem outer_eq : t.contents.dropLast.map (answers id) = t'.contents.dropLast.map (answers ρ) := by
  rw [List.map_dropLast, h.answers_eq, List.map_dropLast]

theorem innermost_eq : answers id t.lookupLocal = answers ρ t'.lookupLocal := by
  have heq := h.answers_eq
  rw [t.contents_eq, t'.contents_eq, List.map_append, List.map_append, h.outer_eq] at heq
  exact List.singleton_inj.mp (List.append_cancel_left heq)

theorem push : t.push.Renamed ρ t'.push where
  linked := linked_push h.linked
  linked' := linked_push h.linked'
  answers_eq := by
    simp only [contents_push, List.map_append, h.answers_eq]
    rfl

theorem pop : t.pop.2.Renamed ρ t'.pop.2 where
  linked := linked_pop h.linked
  linked' := linked_pop h.linked'
  answers_eq := by
    by_cases hroot : t.scopes.size = 1
    · have hroot' : t'.scopes.size = 1 := h.depth_eq.symm.trans hroot
      simpa [ScopeTable.pop, hroot, hroot'] using h.answers_eq
    · rw [contents_pop hroot, contents_pop (h.depth_eq ▸ hroot), h.outer_eq]

theorem insert (hs : s.Renamed ρ s') : (t.insert s.key s).Renamed ρ (t'.insert s'.key s') where
  linked := linked_insert h.linked _ _
  linked' := linked_insert h.linked' _ _
  answers_eq := by
    simp only [contents_insert, List.map_append, h.outer_eq, List.map_cons, List.map_nil,
      answers_update h.innermost_eq hs]

/-- A name is declared in both tables or in none. What is no name may be new in one of them only. -/
theorem define (hs : s.Renamed ρ s') :
    (t.define s.key s).2.Renamed ρ (t'.define s'.key s').2 where
  linked := linked_define h.linked _ _
  linked' := linked_define h.linked' _ _
  answers_eq := by
    by_cases hname : isName s.key = true
    · have hkey' : s'.key = ρ ⟨s.key, hname⟩ := (hs.key_iff ⟨s.key, hname⟩).mp rfl
      have hlocal := congrArg Option.isSome (congrFun h.innermost_eq ⟨s.key, hname⟩)
      simp only [answers, Option.isSome_map, id, ← hkey'] at hlocal
      unfold ScopeTable.define
      rw [hlocal]
      split
      · exact h.answers_eq
      · exact (h.insert hs).answers_eq
    · have hkey (x : Name) : s.key ≠ id x := fun hx => hname (hx ▸ x.2)
      have hkey' (x : Name) : s'.key ≠ ρ x := fun hx => hkey x ((hs.key_iff x).mpr hx)
      rw [answers_define hkey, answers_define hkey', h.answers_eq]

theorem lookup_eq (x : Name) : (t.lookup x).map Symbol.isPatternConstant =
    (t'.lookup (ρ x)).map Symbol.isPatternConstant := by
  have hlookup {t : ScopeTable} (ht : t.Linked) (f : Name → Name) :
      (t.lookup (f x)).map Symbol.isPatternConstant =
        (t.contents.map (answers f)).reverse.findSome? (· x) := by
    rw [ScopeTable.lookup_eq ht, List.map_findSome?, ← List.map_reverse, List.findSome?_map]
    rfl
  rw [hlookup h.linked' ρ, ← h.answers_eq]
  exact hlookup h.linked id

end Renamed

end ScopeTable

namespace Names

variable {n n' : Names} {s s' : Symbol} (h : n.scopes.Renamed ρ n'.scopes)

theorem declare_scopes (n : Names) (s : Symbol) (place : Position) :
    (n.declare s place).scopes = (n.scopes.define s.key s).2 := by
  unfold declare ScopeTable.define
  cases (n.scopes.lookupLocal s.key).isSome <;> rfl

include h

theorem isConstant_renamed (x : Name) : n.isConstant x = n'.isConstant (ρ x) := by
  have hlookup := congrArg (Option.any id) (h.lookup_eq x)
  rwa [Option.any_map, Option.any_map] at hlookup

theorem declare_renamed (hs : s.Renamed ρ s') (place place' : Position) :
    (n.declare s place).scopes.Renamed ρ (n'.declare s' place').scopes := by
  rw [declare_scopes, declare_scopes]
  exact h.define hs

omit h in
theorem bindAll_renamed {ss ss' : List Symbol} (h : n.scopes.Renamed ρ n'.scopes)
    (hs : List.Forall₂ (Symbol.Renamed ρ) ss ss') :
    (n.bindAll ss).scopes.Renamed ρ (n'.bindAll ss').scopes := by
  unfold bindAll
  induction hs generalizing n n' with
  | nil => exact h
  | cons hs _ ih => exact ih (h.insert hs)

end Names

def Cursor.view (v : View) (c : Cursor) : Cursor :=
  ⟨c.passed.map (Token.view v), c.ahead.map (Token.view v), c.beyond, c.file⟩

namespace SyntaxError

def view (v : View) (kind : TokenKind) (e : SyntaxError) : SyntaxError :=
  match e.cause with
  | .unexpectedToken expected found => ⟨.unexpectedToken expected (v.text kind found), e.position⟩
  | _ => e

def IsAbout (e : SyntaxError) (c : Cursor) : Prop :=
  ∀ expected found, e.cause = .unexpectedToken expected found →
    ∃ t, c.ahead? 0 = some t ∧ t.value = found ∧ t.span.start = e.position

end SyntaxError

namespace Cursor

theorem ahead?_view (v : View) (c : Cursor) (n : Nat) :
    (c.view v).ahead? n = (c.ahead? n).map (Token.view v) :=
  List.getElem?_map ..

theorem kindAhead_view (v : View) (c : Cursor) (n : Nat) : (c.view v).kindAhead n = c.kindAhead n := by
  rw [kindAhead, ahead?_view, Option.map_map]
  rfl

theorem advance_view (v : View) (c : Cursor) : (c.view v).advance = c.advance.view v := by
  obtain ⟨passed, _ | ⟨t, ts⟩, beyond, file⟩ := c <;> rfl

theorem spanFrom_view (v : View) (c : Cursor) (a : Span) :
    (c.view v).spanFrom (v.span a) = v.span (c.spanFrom a) := by
  obtain ⟨_ | ⟨t, ts⟩, ahead, _ | beyond, file⟩ := c <;> rfl

theorem position_renamed (ρ : Name ↪ Name) (c : Cursor) :
    (c.view (Renaming.view ρ)).position = c.position := by
  obtain ⟨_ | ⟨t, ts⟩, _ | ⟨u, us⟩, beyond, file⟩ := c <;> rfl

theorem unexpected_renamed (ρ : Name ↪ Name) (c : Cursor) (expected : String) :
    (c.view (Renaming.view ρ)).unexpected expected =
      (c.unexpected expected).view (Renaming.view ρ) c.kind := by
  obtain ⟨passed, _ | ⟨t, ts⟩, beyond, file⟩ := c
  · obtain _ | ⟨u, us⟩ := passed <;> rfl
  · simp only [unexpected, view, List.map_cons, Token.kind_view]
    split <;> rfl

theorem unexpected_isAbout (c : Cursor) (expected : String) :
    (c.unexpected expected).IsAbout c := by
  intro expected' found hcause
  obtain ⟨passed, _ | ⟨t, ts⟩, beyond, file⟩ := c
  · cases hcause
  · refine ⟨t, rfl, ?_⟩
    simp only [unexpected] at hcause ⊢
    split at hcause <;> cases hcause
    rw [if_neg ‹_›]
    exact ⟨rfl, rfl⟩

end Cursor

/-- Two states of which the second is the first with names renamed. -/
structure ParseState.Renamed (ρ : Name ↪ Name) (s s' : ParseState) : Prop where
  scopes : s.scopes.Renamed ρ s'.scopes
  cursor_eq : s'.cursor = s.cursor.view (view ρ)
  wellKinded : ∀ t ∈ s.cursor.ahead, t.kind ≠ .eof → t.WellKinded
  depth_eq : s.depth = s'.depth
  literals_eq : s.structLiterals = s'.structLiterals

namespace ParseState.Renamed

variable {s s' : ParseState} (h : s.Renamed ρ s')
include h

theorem kindAhead_eq (n : Nat) : s.cursor.kindAhead n = s'.cursor.kindAhead n := by
  rw [h.cursor_eq, Cursor.kindAhead_view]

theorem advance (hk : s.cursor.kind ≠ .eof) : ∃ t t', s.cursor.ahead? 0 = some t ∧
    s'.cursor.ahead? 0 = some t' ∧ Alike ρ t t' ∧
    Renamed ρ { s with cursor := s.cursor.advance } { s' with cursor := s'.cursor.advance } := by
  obtain ⟨t, ht⟩ := Cursor.exists_of_kind_ne hk
  have hkind : t.kind ≠ .eof := Cursor.kind_of_ahead? ht ▸ hk
  have hmem : t ∈ s.cursor.ahead := List.mem_of_getElem? ht
  refine ⟨t, t.view (view ρ), ht, ?_, ?_, h.scopes, ?_, ?_, h.depth_eq, h.literals_eq⟩
  · rw [h.cursor_eq, Cursor.ahead?_view, ht]
    rfl
  · exact alike_token_iff.mpr ⟨⟨hkind, h.wellKinded t hmem hkind⟩, rfl⟩
  · rw [h.cursor_eq, Cursor.advance_view]
  · intro u hu
    rw [Cursor.ahead_advance] at hu
    exact h.wellKinded u (List.mem_of_mem_tail hu)

theorem unexpected_eq (expected : String) : s'.cursor.unexpected expected =
    (s.cursor.unexpected expected).view (view ρ) s.cursor.kind := by
  rw [h.cursor_eq, Cursor.unexpected_renamed]

theorem withNames {n n' : Names} (hn : n.scopes.Renamed ρ n'.scopes) :
    Renamed ρ { s with toNames := n } { s' with toNames := n' } :=
  ⟨hn, h.cursor_eq, h.wellKinded, h.depth_eq, h.literals_eq⟩

theorem declare {symbol symbol' : Symbol} (hs : symbol.Renamed ρ symbol') (place place' : Position) :
    Renamed ρ { s with toNames := s.declare symbol place }
      { s' with toNames := s'.declare symbol' place' } :=
  h.withNames (Names.declare_renamed h.scopes hs place place')

end ParseState.Renamed

theorem isName_self : isName "self" = false := by decide

def Lockstep.renaming (ρ : Name ↪ Name) (options : ParseOptions) : Lockstep where
  limit := options.maxDepth
  resolve := options.resolvePatterns
  resolve' := options.resolvePatterns
  left := .marked '*' (view ρ).text
  right := .marked '-' fun _ s => s
  states := ParseState.Renamed ρ
  errors c _ e e' := e' = e.view (view ρ) c.kind ∧ e.IsAbout c
  constants_eq := rfl
  depth_eq h := h.depth_eq
  literals_eq h := h.literals_eq
  setDepth _ h := ⟨h.scopes, h.cursor_eq, h.wellKinded, rfl, h.literals_eq⟩
  setLiterals _ h := ⟨h.scopes, h.cursor_eq, h.wellKinded, h.depth_eq, rfl⟩
  push h := h.withNames h.scopes.push
  pop h := h.withNames h.scopes.pop
  kind_eq h := h.kindAhead_eq 0
  next_eq h _ := h.kindAhead_eq 1
  afterNext_eq h _ _ := h.kindAhead_eq 2
  take h hk := h.advance hk
  spanFrom {s s' a a'} h ha := by
    obtain rfl : a = a' := ha
    rw [h.cursor_eq]
    exact (s.cursor.spanFrom_view (view ρ) a).symm
  current {s s'} h := by
    by_cases hk : s.cursor.kind = .eof
    · refine .inr ⟨hk, fun x y hxy => ?_⟩
      obtain rfl : x = y := hxy (by rw [h.cursor_eq, Cursor.ahead?_view, Option.isSome_map])
      exact ⟨h.unexpected_eq x, s.cursor.unexpected_isAbout x⟩
    · obtain ⟨t, t', ht, ht', halike, -⟩ := h.advance hk
      rw [ht, ht']
      exact .inl halike.some
  unexpected {s s'} x h := ⟨h.unexpected_eq x, s.cursor.unexpected_isAbout x⟩
  tooDeep {s s'} h := by
    rw [h.cursor_eq, Cursor.position_renamed]
    exact ⟨rfl, nofun⟩
  constant {s s' t t'} h ht hid := by
    obtain ⟨⟨-, hfits⟩, -⟩ := alike_token_iff.mp ht
    have hvalue := (Alike.eq_name_iff ht ⟨t.value, hfits.mp hid⟩).mp rfl
    rw [hvalue]
    exact .inl (congrArg _ (Names.isConstant_renamed h.scopes ⟨t.value, hfits.mp hid⟩))
  bindPattern h hp _ := h.withNames (Names.bindAll_renamed h.scopes (Symbol.Renamed.ofPattern hp _ _))
  declareSelf h _ _ := by
    refine h.declare ?_ _ _
    exact .of_no_names rfl isName_self isName_self
  declareParam h ht _ := by
    refine h.declare ?_ _ _
    exact .of_tokens ht rfl rfl rfl
  declareMember h hm _ := h.declare (.ofMember hm) _ _
  declareItem h hi := h.declare (.ofItem hi) _ _

/-- What looks alike is the same but for the renaming. -/
theorem Crate.eq_view_of_alike {c c' : Crate}
    (h : c.view (.marked '*' (Renaming.view ρ).text) = c'.view (.marked '-' fun _ s => s)) :
    c' = c.view (Renaming.view ρ) := by
  have hunmarked := congrArg (Crate.view .unmarked) h
  rw [Crate.view_view, Crate.view_view, View.unmarked_comp_marked, View.unmarked_comp_marked]
    at hunmarked
  exact c'.view_all.symm.trans hunmarked.symm

/-- Names do not matter: if the identifiers among the tokens of a source text are renamed, different
ones to different ones, they are read to the same tree with its identifiers renamed, or fail with the
same error at the same place, in which the token found is renamed if it is an identifier. -/
theorem parse_renamed (ρ : Name ↪ Name) {source file : String} {tokens : List Token}
    (hscan : Token.scan source file = .ok tokens) (name : String) (options : ParseOptions) :
    (∃ c s s', parse tokens name options = .ok c s ∧
      parse (tokens.map (Token.view (view ρ))) name options = .ok (c.view (view ρ)) s') ∨
    (∃ e s s', parse tokens name options = .error e s ∧ e.IsAbout s.cursor ∧
      parse (tokens.map (Token.view (view ρ))) name options =
        .error (e.view (view ρ) s.cursor.kind) s') := by
  have hstart : ParseState.Renamed ρ (.initial tokens name)
      (.initial (tokens.map (Token.view (view ρ))) name) :=
    ⟨.empty, rfl, fun _ ht heof => Token.wellKinded_of_scan hscan ht heof, rfl, rfl⟩
  rcases (Lockstep.renaming ρ options).parse_alike hstart with
    ⟨items, items', s, s', h, h', hitems, hs⟩ | ⟨e, e', s, s', h, h', herrors, -⟩
  · have hs : ParseState.Renamed ρ s s' := hs
    have hposition : s'.cursor.position = s.cursor.position := by
      rw [hs.cursor_eq, Cursor.position_renamed]
    have hitems : items.map (Item.view (.marked '*' (view ρ).text)) =
        items'.map (Item.view (.marked '-' fun _ s => s)) := hitems
    refine .inl ⟨_, s, s', h, h'.trans (congrArg (EStateM.Result.ok · s') ?_)⟩
    apply Crate.eq_view_of_alike
    simp only [Crate.view, hitems, hposition]
    rfl
  · obtain ⟨rfl, habout⟩ : e' = e.view (view ρ) s.cursor.kind ∧ e.IsAbout s.cursor := herrors
    exact .inr ⟨e, s, s', h, habout, h'⟩

/-- Two constants with their names swapped. The pattern in the second one means the first in both
readings. -/
theorem parse_renamed_swapped :
    let source := "const A: u8 = 1; const B: u8 = match A { A => 2 };"
    let ρ := (Equiv.swap (⟨"A", by decide⟩ : Name) ⟨"B", by decide⟩).toEmbedding
    ∃ tokens c s s', Token.scan source "t" = .ok tokens ∧ parse tokens "t" = .ok c s ∧
      parse (tokens.map (Token.view (view ρ))) "t" = .ok (c.view (view ρ)) s' ∧
      (c.view (view ρ)).items.map (fun i => i.name?.map Token.value) = [some "B", some "A"] := by
  intro source ρ
  have hscan : ((Token.scan source "t").map fun tokens => succeeds (fun c _ =>
      (c.view (view ρ)).items.map (fun i => i.name?.map Token.value) == [some "B", some "A"])
      (parse tokens "t")).toOption = some true := by
    decide +kernel
  match h : Token.scan source "t" with
  | .error e =>
    rw [h] at hscan
    cases hscan
  | .ok tokens =>
    rw [h] at hscan
    obtain ⟨c, s, hc, hnames⟩ := exists_ok_of_succeeds (Option.some.inj hscan)
    rcases parse_renamed ρ h "t" {} with ⟨c', s, s', hparse, hrenamed⟩ | ⟨e, s, s', he, -⟩
    · obtain ⟨rfl, rfl⟩ := EStateM.Result.ok.inj (hc.symm.trans hparse)
      exact ⟨tokens, c, _, s', rfl, hparse, hrenamed, by simpa using hnames⟩
    · cases hc.symm.trans he

end FrontEnd
