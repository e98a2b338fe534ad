import FrontEnd.Proofs.Completeness
import FrontEnd.Proofs.Grouping
import FrontEnd.Proofs.NestingLimit
/-!
# Chains of operators

An expression without blocks is a chain: operands with operators between them. Its operands group as
a whole (`Groups`), but it is read from left to right, one operator at a time, and how far a part of
it goes depends on a bound for tiers only. The two agree.
-/
namespace FrontEnd

open Grammar (exprStarts)
open Token (fixed)

/-- The tokens that a chain goes on with. -/
def Joint.text (joints : List Joint) : List Token := joints.flatMap fun j => j.operator :: j.tokens

/-- The parts of a chain. -/
inductive ChainPart
  | chain
  /-- An operand with its casts. -/
  | operand
  /-- An operand without casts: operators, and what they stand before. -/
  | prefixed
  /-- A name, a literal or a chain in parentheses, and members, calls and indices after it. -/
  | postfixed
  /-- Chains with commas between them, and perhaps one after the last. -/
  | arguments
  /-- What follows the first argument. -/
  | more

abbrev ChainPart.Tree : ChainPart → Type
  | arguments | more => List Expr
  | _ => Expr

def Expr.isField : Expr → Bool
  | field _ _ _ => true
  | _ => false

/-- The tokens of a part of a chain, and what the part stands for. -/
inductive StandsFor : (p : ChainPart) → List Token → p.Tree → Prop
  | chain {w : List Token} {e t : Expr} {joints : List Joint} : StandsFor .operand w e →
    (∀ j ∈ joints, StandsFor .operand j.tokens j.operand) → Groups e joints t →
    StandsFor .chain (w ++ Joint.text joints) t
  -- operands
  | operand {w : List Token} {e : Expr} : StandsFor .prefixed w e → StandsFor .operand w e
  | cast {w : List Token} {e : Expr} {keyword name : Token} : StandsFor .operand w e →
    keyword.kind = .kwAs → name.kind = .identifier →
    StandsFor .operand (w ++ [keyword, name])
      (.cast e (.path (.ofToken name)) (e.span.to name.span))
  -- operators before an operand
  | prefixed {w : List Token} {e : Expr} : StandsFor .postfixed w e → StandsFor .prefixed w e
  | unary {mark : Token} {w : List Token} {e : Expr} : mark.kind = .dash ∨ mark.kind = .bang →
    StandsFor .prefixed w e → StandsFor .prefixed (mark :: w) (.unary mark e (mark.span.to e.span))
  | deref {mark : Token} {w : List Token} {e : Expr} : mark.kind = .star → StandsFor .prefixed w e →
    StandsFor .prefixed (mark :: w) (.deref e (mark.span.to e.span))
  | borrow {mark : Token} {w : List Token} {e : Expr} : mark.kind = .ampersand →
    StandsFor .prefixed w e →
    StandsFor .prefixed (mark :: w) (.borrow false e (mark.span.to e.span))
  | borrowMut {mark keyword : Token} {w : List Token} {e : Expr} : mark.kind = .ampersand →
    keyword.kind = .kwMut → StandsFor .prefixed w e →
    StandsFor .prefixed (mark :: keyword :: w) (.borrow true e (mark.span.to e.span))
  | borrows {mark : Token} {w : List Token} {e : Expr} : mark.kind = .andAnd →
    StandsFor .prefixed w e →
    StandsFor .prefixed (mark :: w)
      (.borrow false (.borrow false e (mark.span.to e.span)) (mark.span.to e.span))
  | borrowsMut {mark keyword : Token} {w : List Token} {e : Expr} : mark.kind = .andAnd →
    keyword.kind = .kwMut → StandsFor .prefixed w e →
    StandsFor .prefixed (mark :: keyword :: w)
      (.borrow false (.borrow true e (mark.span.to e.span)) (mark.span.to e.span))
  -- an operand and what follows it
  | name {t : Token} : t.kind = .identifier → StandsFor .postfixed [t] (.path (.ofToken t))
  | literal {t : Token} : t.kind.isLiteral = true → StandsFor .postfixed [t] (.literal t)
  | grouped {opening closing : Token} {w : List Token} {e : Expr} : opening.kind = .openParen →
    StandsFor .chain w e → closing.kind = .closeParen →
    StandsFor .postfixed (opening :: (w ++ [closing])) (.grouped e (opening.span.to closing.span))
  | field {dot name : Token} {w : List Token} {e : Expr} : StandsFor .postfixed w e →
    dot.kind = .dot → name.kind = .identifier →
    StandsFor .postfixed (w ++ [dot, name]) (.field e name (e.span.to name.span))
  | methodCall {dot name opening closing : Token} {w v : List Token} {e : Expr} {es : List Expr} :
    StandsFor .postfixed w e → dot.kind = .dot → name.kind = .identifier →
    opening.kind = .openParen → StandsFor .arguments v es → closing.kind = .closeParen →
    StandsFor .postfixed (w ++ dot :: name :: opening :: (v ++ [closing]))
      (.methodCall e name es (e.span.to closing.span))
  /-- Arguments right after a member would make a method of it. -/
  | call {opening closing : Token} {w v : List Token} {e : Expr} {es : List Expr} :
    StandsFor .postfixed w e → e.isField = false → opening.kind = .openParen →
    StandsFor .arguments v es → closing.kind = .closeParen →
    StandsFor .postfixed (w ++ opening :: (v ++ [closing])) (.call e es (e.span.to closing.span))
  | index {opening closing : Token} {w v : List Token} {e i : Expr} : StandsFor .postfixed w e →
    opening.kind = .openBracket → StandsFor .chain v i → closing.kind = .closeBracket →
    StandsFor .postfixed (w ++ opening :: (v ++ [closing])) (.index e i (e.span.to closing.span))
  -- arguments
  | argumentsNil : StandsFor .arguments [] []
  | argumentsCons {w v : List Token} {e : Expr} {es : List Expr} : StandsFor .chain w e →
    StandsFor .more v es → StandsFor .arguments (w ++ v) (e :: es)
  | moreNil : StandsFor .more [] []
  | moreComma {comma : Token} : comma.kind = .comma → StandsFor .more [comma] []
  | moreCons {comma : Token} {w v : List Token} {e : Expr} {es : List Expr} : comma.kind = .comma →
    StandsFor .chain w e → StandsFor .more v es → StandsFor .more (comma :: (w ++ v)) (e :: es)

/-- What follows a name without being an operator on it: words of a path, fields of a struct. -/
def nameTails : List TokenKind := [.pathSep, .openCurly]

/-- What follows an operand as a part of it, casts apart. -/
def operandTails : List TokenKind := nameTails ++ [.dot, .openParen, .openBracket]

/-- Before all suffixes that go on with an expression, except those that begin with a barred token,
the tokens are read as the expression that the suffixes attach to. The bound for suffixes is below a
tier. -/
def Leads (resolve : Bool) (tier : Tier) (barred : List TokenKind) (w : List Token) (e : Expr) :
    Prop :=
  ∀ ⦃above : Tier⦄ ⦃ℓ : Nat⦄ ⦃b : Bool⦄ ⦃rest : List Token⦄ ⦃n : Names⦄ ⦃ss : List Suffix⦄
    ⦃z : Place⦄, w.length ≤ ℓ → above < tier → kindAt rest 0 ∉ barred →
    Derives resolve (.suffixes above) ℓ b ⟨rest, n⟩ ss z →
    Derives resolve (.expr above) (ℓ + 1) b ⟨w ++ rest, n⟩ (ss.foldl Suffix.attach e) z

variable {resolve : Bool} {tier tier' : Tier} {barred barred' : List TokenKind}
  {w v rest : List Token} {e t : Expr} {joints : List Joint}

/-- An operator that binds tightly enough begins a suffix. -/
theorem Derives.suffixes_cons {operator : Token} {τ above : Tier} {ℓ : Nat} {b : Bool}
    {n : Names} {s : Suffix} {ss : List Suffix} {y z : Place}
    (hτ : operator.kind.tier? = some τ) (habove : above < τ)
    (hs : Derives resolve .suffix ℓ b ⟨operator :: rest, n⟩ s y)
    (hss : Derives resolve (.suffixes above) ℓ b y ss z) :
    Derives resolve (.suffixes above) ℓ b ⟨operator :: rest, n⟩ (s :: ss) z :=
  .suffixesCons hτ habove hs hss

namespace Leads

theorem mono (h : Leads resolve tier barred w e) (htier : tier' ≤ tier)
    (hbarred : ∀ k ∈ barred, k ∈ barred') : Leads resolve tier' barred' w e := by
  intro above ℓ b rest n ss z hlength habove hrest
  apply h hlength (Tier.lt_of_lt_of_le habove htier)
  exact fun hmem => hrest (hbarred _ hmem)

/-- A term is an expression without suffixes. -/
theorem of_term (h : ∀ {ℓ : Nat} {b : Bool} {rest : List Token} {n : Names}, w.length ≤ ℓ →
    kindAt rest 0 ∉ barred → Derives resolve .term ℓ b ⟨w ++ rest, n⟩ e ⟨rest, n⟩) :
    Leads resolve tier barred w e := by
  intro above ℓ b rest n ss z hlength _ hrest hss
  exact .expr (h hlength hrest) hss

/-- A suffix attaches before those after it. -/
theorem attach {τ : Tier} (h : Leads resolve tier barred w e) (operator : Token) (s : Suffix)
    (hoperator : operator.kind.tier? = some τ) (hτ : tier ≤ τ) (hbarred : operator.kind ∉ barred)
    (hs : ∀ {ℓ : Nat} {b : Bool} {rest : List Token} {n : Names}, v.length ≤ ℓ →
      kindAt rest 0 ∉ barred' →
      Derives resolve .suffix (ℓ + 1) b ⟨operator :: (v ++ rest), n⟩ s ⟨rest, n⟩) :
    Leads resolve tier barred' (w ++ operator :: v) (s.attach e) := by
  intro above ℓ b rest n ss z hlength habove hrest hss
  rw [List.length_append, List.length_cons] at hlength
  obtain ⟨m, rfl⟩ := Nat.exists_eq_add_one.mpr (by omega : 0 < ℓ)
  have hsuffix := hs (b := b) (n := n) (by omega : v.length ≤ m) hrest
  have hsuffixes := Derives.suffixes_cons hoperator (Tier.lt_of_lt_of_le habove hτ) hsuffix hss
  have hnext : kindAt (operator :: (v ++ rest)) 0 ∉ barred := hbarred
  have hexpr := h (by omega) habove hnext hsuffixes
  rwa [List.append_assoc]

/-- What an operator stands before goes on with no suffix that binds less tightly. -/
theorem operand {ℓ : Nat} {b : Bool} {n : Names} (h : Leads resolve .call operandTails w e)
    (hlength : w.length ≤ ℓ) (hrest : kindAt rest 0 ∉ operandTails) :
    Derives resolve (.expr .unary) (ℓ + 1) b ⟨w ++ rest, n⟩ e ⟨rest, n⟩ := by
  have hnone : Derives resolve (.suffixes .unary) ℓ b ⟨rest, n⟩ [] ⟨rest, n⟩ := by
    apply Derives.suffixesNil
    intro τ hτ
    rw [Place.kind_mk] at hτ
    generalize kindAt rest 0 = k at hτ hrest
    cases k <;> cases hτ <;> first | decide | exact absurd hrest (by decide)
  exact h hlength (by decide) hrest hnone

end Leads

/-- The tier above which an operator looks for its right operand. -/
def Tier.rightBound (τ : Tier) : Tier := if τ = .assignment then .lowest else τ

/-- An operator with a right operand attaches to a left one. -/
theorem Joint.exists_suffix (j : Joint) {ℓ : Nat} {b : Bool} {x y : Place} {r : Expr}
    (hr : Derives resolve (.expr j.tier.rightBound) ℓ b x r y) :
    ∃ s, Derives resolve .suffix ℓ b ⟨j.operator :: x.rest, x.names⟩ s y ∧
      ∀ l, s.attach l = .joined j.operator l r := by
  obtain ⟨operator, τ, tokens, operand, hoperator, hτ⟩ := j
  dsimp only at hr ⊢
  by_cases hassign : τ = .assignment
  · subst hassign
    by_cases hkind : operator.kind = .assignment
    · refine ⟨_, .sufAssign hkind hr, fun l => ?_⟩
      simp [Suffix.attach, Expr.joined, hkind]
    · refine ⟨_, .sufCompound hoperator hkind hr, fun l => ?_⟩
      simp [Suffix.attach, Expr.joined, hkind, hoperator]
  · rw [Tier.rightBound, if_neg hassign] at hr
    have hkind : operator.kind ≠ .assignment := by
      intro hkind
      rw [hkind] at hoperator
      cases hoperator
      exact hassign rfl
    refine ⟨_, .sufBinary hoperator (List.not_mem_cons_of_ne_of_not_mem hassign hτ) hr, fun l => ?_⟩
    simp [Suffix.attach, Expr.joined, hkind, hoperator, hassign]

namespace Joint

/-- No operator between two operands is a part of one. -/
theorem kind_not_mem (j : Joint) : j.operator.kind ∉ operandTails := by
  obtain ⟨operator, τ, tokens, operand, hoperator, hτ⟩ := j
  dsimp only
  generalize operator.kind = k at hoperator
  cases k <;> cases hoperator <;> first | decide | exact absurd hτ (by decide)

theorem rightBound_lt (j : Joint) : j.tier.rightBound < .cast := by
  obtain ⟨operator, τ, tokens, operand, hoperator, hτ⟩ := j
  dsimp only
  generalize operator.kind = k at hoperator
  cases k <;> cases hoperator <;> first | decide | exact absurd hτ (by decide)

theorem lowest_lt (j : Joint) : .lowest < j.tier := TokenKind.lowest_lt_tier j.tier_eq

theorem text_append (joints joints' : List Joint) :
    text (joints ++ joints') = text joints ++ text joints' := by
  simp [text]

theorem text_cons (j : Joint) (joints : List Joint) :
    text (j :: joints) = j.operator :: (j.tokens ++ text joints) := by
  simp [text]

/-- What follows an operand of a chain is no part of it. -/
theorem kindAt_text (joints : List Joint) (hrest : kindAt rest 0 ∉ operandTails) :
    kindAt (text joints ++ rest) 0 ∉ operandTails := by
  cases joints with
  | nil => exact hrest
  | cons j joints =>
    rw [text_cons]
    exact j.kind_not_mem

/-- An operator may follow a chain: it binds no more tightly than any operator of the chain, and no
assignment is among these. -/
def Before (joints : List Joint) (k : TokenKind) : Prop :=
  ∀ j ∈ joints, ∀ τ, k.tier? = some τ → τ ≤ j.tier ∧ j.tier ≠ .assignment

end Joint

/-- Operators and operands are read from left to right as suffixes of the first operand, and these
attach to it so that it becomes the tree. -/
def Folds (resolve : Bool) (e : Expr) (joints : List Joint) (t : Expr) : Prop :=
  ∀ ⦃above : Tier⦄ ⦃ℓ : Nat⦄ ⦃b : Bool⦄ ⦃rest : List Token⦄ ⦃n : Names⦄ ⦃ss : List Suffix⦄
    ⦃z : Place⦄, (Joint.text joints).length ≤ ℓ → (∀ j ∈ joints, above < j.tier) →
    kindAt rest 0 ∉ operandTails → Joint.Before joints (kindAt rest 0) →
    Derives resolve (.suffixes above) ℓ b ⟨rest, n⟩ ss z →
    ∃ ss', Derives resolve (.suffixes above) ℓ b ⟨Joint.text joints ++ rest, n⟩ ss' z ∧
      ss'.foldl Suffix.attach e = ss.foldl Suffix.attach t

/-- An operator joins what is before it and what is after it, if it binds no more tightly than the
operators before it and its right operand goes on to the end. -/
theorem Folds.join {j : Joint} {before after : List Joint} {l r : Expr}
    (hl : Folds resolve e before l) (hr : Folds resolve j.operand after r)
    (hoperand : Leads resolve .cast operandTails j.tokens j.operand)
    (hbefore : ∀ i ∈ before, j.tier ≤ i.tier ∧ i.tier ≠ .assignment)
    (hafter : ∀ i ∈ after, j.tier.rightBound < i.tier) :
    Folds resolve e (before ++ j :: after) (.joined j.operator l r) := by
  intro above ℓ b rest n ss z hlength habove hrest hends hss
  rw [Joint.text_append, Joint.text_cons, List.length_append, List.length_cons,
    List.length_append] at hlength
  obtain ⟨m, rfl⟩ := Nat.exists_eq_add_one.mpr (by omega : 0 < ℓ)
  have hj : j ∈ before ++ j :: after := by simp
  -- the right operand goes on to the end of the chain
  have hstop : Derives resolve (.suffixes j.tier.rightBound) m b ⟨rest, n⟩ [] ⟨rest, n⟩ := by
    apply Derives.suffixesNil
    intro τ hτ hlt
    obtain ⟨hle, hne⟩ := hends j hj τ hτ
    rw [Tier.rightBound, if_neg hne] at hlt
    exact Tier.not_le_of_lt hlt hle
  obtain ⟨inner, hinner, htree⟩ := hr (by omega : _ ≤ m) hafter hrest
    (fun i hi => hends i (by simp [hi])) hstop
  have hnext := Joint.kindAt_text after hrest
  have hright := hoperand (by omega : _ ≤ m) j.rightBound_lt hnext hinner
  rw [htree] at hright
  -- with its operator it is a suffix of what is before
  obtain ⟨s, hs, hattach⟩ := j.exists_suffix hright
  have hsuffixes := Derives.suffixes_cons j.tier_eq (habove j hj) hs hss
  have hcontinues : Joint.Before before j.operator.kind := by
    intro i hi τ hτ
    cases j.tier_eq.symm.trans hτ
    exact hbefore i hi
  have hoperator :
      kindAt (j.operator :: (j.tokens ++ (Joint.text after ++ rest))) 0 ∉ operandTails :=
    j.kind_not_mem
  obtain ⟨outer, houter, htree⟩ := hl (by omega) (fun i hi => habove i (by simp [hi])) hoperator
    hcontinues hsuffixes
  refine ⟨outer, ?_, ?_⟩
  · simpa [Joint.text_append, Joint.text_cons] using houter
  · rw [htree, List.foldl_cons, hattach, List.foldl_nil]

/-- Reading from left to right agrees with how operands group. -/
theorem Groups.folds (h : Groups e joints t)
    (hoperands : ∀ j ∈ joints, Leads resolve .cast operandTails j.tokens j.operand) :
    Folds resolve e joints t := by
  induction h with
  | operand e =>
    intro above ℓ b rest n ss z _ _ _ _ hss
    exact ⟨ss, hss, rfl⟩
  | @assignment e l r j before after hj hfirst _ _ ihl ihr =>
    obtain ⟨hl, hjr⟩ := List.forall_mem_append.mp hoperands
    obtain ⟨hoperand, hr⟩ := List.forall_mem_cons.mp hjr
    apply Folds.join (ihl hl) (ihr hr) hoperand
    · intro i hi
      rw [hj]
      exact ⟨i.lowest_lt, hfirst i hi⟩
    · intro i _
      rw [hj]
      exact i.lowest_lt
  | @loosest e l r j before after hnone hbefore hafter _ _ ihl ihr =>
    obtain ⟨hl, hjr⟩ := List.forall_mem_append.mp hoperands
    obtain ⟨hoperand, hr⟩ := List.forall_mem_cons.mp hjr
    apply Folds.join (ihl hl) (ihr hr) hoperand
    · intro i hi
      exact ⟨hbefore i hi, hnone i (by simp [hi])⟩
    · intro i hi
      rw [Tier.rightBound, if_neg (hnone j (by simp))]
      exact hafter i hi

def ChainPart.Derived (resolve : Bool) : (p : ChainPart) → List Token → p.Tree → Prop
  | chain, w, t => ∀ ⦃ℓ : Nat⦄ ⦃b : Bool⦄ ⦃rest : List Token⦄ ⦃n : Names⦄, w.length ≤ ℓ →
    (kindAt rest 0).tier? = none → kindAt rest 0 ∉ nameTails →
    Derives resolve (.expr .lowest) (ℓ + 1) b ⟨w ++ rest, n⟩ t ⟨rest, n⟩
  | operand, w, e => Leads resolve .cast operandTails w e
  | prefixed, w, e => Leads resolve .call operandTails w e
  | postfixed, w, e =>
    Leads resolve .call (nameTails ++ if e.isField then [.openParen] else []) w e
  | arguments, w, es => ∀ ⦃ℓ : Nat⦄ ⦃b : Bool⦄ ⦃rest : List Token⦄ ⦃n : Names⦄ ⦃closing : Token⦄,
    w.length ≤ ℓ → closing.kind = .closeParen →
    Derives resolve (.list .round (.expr .lowest)) (ℓ + 1) b ⟨w ++ closing :: rest, n⟩ es ⟨rest, n⟩
  | more, w, es => ∀ ⦃ℓ : Nat⦄ ⦃b : Bool⦄ ⦃rest : List Token⦄ ⦃n : Names⦄ ⦃closing : Token⦄,
    w.length ≤ ℓ → closing.kind = .closeParen →
    Derives resolve (.more .round (.expr .lowest)) (ℓ + 1) b ⟨w ++ closing :: rest, n⟩ es ⟨rest, n⟩

/-- A name by itself is a path. -/
theorem Derives.name_path {t : Token} {ℓ : Nat} {b : Bool} {n : Names} (ht : t.kind = .identifier)
    (hrest : kindAt rest 0 ≠ .pathSep) :
    Derives resolve .path ℓ b ⟨t :: rest, n⟩ (.ofToken t) ⟨rest, n⟩ := by
  apply Derives.path
  · simp [ht, Grammar.pathSegments]
  · exact .eachNil (.inl ⟨rfl, rfl⟩) hrest

/-- After an argument comes a comma or the parenthesis that closes the list. -/
theorem Derives.kind_more_round {σ : Form} {ℓ : Nat} {b : Bool} {x y : Place} {as : List σ.Tree}
    (h : Derives resolve (.more .round σ) ℓ b x as y) : x.kind = .comma ∨ x.kind = .closeParen := by
  cases h with
  | moreNil h => exact .inr h
  | moreComma ht h => exact .inl ht
  | moreCons hl ht h ha has => exact .inl ht

/-- An operator in front of an operand makes a term of it. -/
theorem Leads.behind {mark : Token} {e' : Expr} (h : Leads resolve .call operandTails w e)
    (marks : List Token)
    (hterm : ∀ {ℓ : Nat} {b : Bool} {rest : List Token} {n : Names},
      Derives resolve (.expr .unary) ℓ b ⟨w ++ rest, n⟩ e ⟨rest, n⟩ →
      Derives resolve .term ℓ b ⟨mark :: (marks ++ (w ++ rest)), n⟩ e' ⟨rest, n⟩) :
    Leads resolve .call operandTails (mark :: (marks ++ w)) e' := by
  apply Leads.of_term
  intro ℓ b rest n hlength hrest
  rw [List.length_cons, List.length_append] at hlength
  obtain ⟨m, rfl⟩ := Nat.exists_eq_add_one.mpr (by omega : 0 < ℓ)
  rw [List.cons_append, List.append_assoc]
  exact hterm (h.operand (by omega) hrest)

/-- No `mut` stands where an expression begins. -/
theorem Derives.noMut {above : Tier} {ℓ : Nat} {b : Bool} {x y : Place}
    (h : Derives resolve (.expr above) ℓ b x e y) :
    Derives resolve (.flag .kwMut) ℓ b x false x :=
  .flagUnset (by decide) (ne_of_mem_of_not_mem h.starts (by decide))

/-- No expression begins where a list of arguments is closed. -/
theorem closeParen_not_mem : TokenKind.closeParen ∉ exprStarts := by decide

/-- An argument is an expression up to what follows it. -/
theorem ChainPart.Derived.argument {σ : Form} {ℓ ℓ' : Nat} {b b' : Bool} {n : Names}
    {as : List σ.Tree} {y : Place} (h : ChainPart.Derived resolve .chain w e)
    (hlength : w.length ≤ ℓ)
    (hmore : Derives resolve (.more .round σ) ℓ' b' ⟨rest, n⟩ as y) :
    Derives resolve (.expr .lowest) (ℓ + 1) b ⟨w ++ rest, n⟩ e ⟨rest, n⟩ := by
  have hrest : kindAt rest 0 = .comma ∨ kindAt rest 0 = .closeParen := hmore.kind_more_round
  apply h hlength
  · rcases hrest with hrest | hrest <;> rw [hrest] <;> rfl
  · rcases hrest with hrest | hrest <;> rw [hrest] <;> decide

theorem StandsFor.derived {p : ChainPart} {t : p.Tree} (h : StandsFor p w t) :
    p.Derived resolve w t := by
  induction h with
  | @chain w e t joints _ _ hgroups ihe ihs =>
    intro ℓ b rest n hlength htier hrest
    rw [List.length_append] at hlength
    have htails : kindAt rest 0 ∉ operandTails := by
      generalize kindAt rest 0 = k at htier hrest
      cases k <;> cases htier <;> first | decide | exact absurd hrest (by decide)
    have hstop : Derives resolve (.suffixes .lowest) ℓ b ⟨rest, n⟩ [] ⟨rest, n⟩ := by
      apply Derives.suffixesNil
      intro τ hτ
      cases htier.symm.trans hτ
    have hends : Joint.Before joints (kindAt rest 0) := by
      intro j _ τ hτ
      cases htier.symm.trans hτ
    obtain ⟨ss, hss, htree⟩ := hgroups.folds ihs (by omega : _ ≤ ℓ) (fun j _ => j.lowest_lt) htails
      hends hstop
    have hexpr := ihe (by omega : _ ≤ ℓ) (by decide) (Joint.kindAt_text joints htails) hss
    rw [htree] at hexpr
    rwa [List.append_assoc]
  | operand _ ih => exact ih.mono (by decide) fun _ hk => hk
  | @cast w e keyword name _ hkeyword hname ih =>
    apply ih.attach keyword (.cast (.path (.ofToken name)))
    · rw [hkeyword, TokenKind.tier?]
    · decide
    · rw [hkeyword]
      decide
    · intro ℓ b rest n _ hrest
      refine .sufCast hkeyword (.tyPath (.inl hname) (.name_path hname ?_))
      exact (ne_of_mem_of_not_mem (by decide) hrest).symm
  | @prefixed w e _ ih =>
    apply ih.mono (Nat.le_refl _)
    cases e.isField <;> decide
  | unary hmark _ ih => exact ih.behind [] fun he => .termUnary hmark he
  | deref hmark _ ih => exact ih.behind [] fun he => .termDeref hmark he
  | borrow hmark _ ih => exact ih.behind [] fun he => .termBorrow hmark he.noMut he
  | @borrowMut mark keyword w e hmark hkeyword _ ih =>
    exact ih.behind [keyword] fun he => .termBorrow hmark (.flagSet (by decide) hkeyword) he
  | borrows hmark _ ih => exact ih.behind [] fun he => .termBorrows hmark he.noMut he
  | @borrowsMut mark keyword w e hmark hkeyword _ ih =>
    exact ih.behind [keyword] fun he => .termBorrows hmark (.flagSet (by decide) hkeyword) he
  | name ht =>
    apply Leads.of_term
    intro ℓ b rest n _ hrest
    have htails : kindAt rest 0 ∉ nameTails := fun hmem => hrest (List.mem_append_left _ hmem)
    apply Derives.termPath (.name_path ht (ne_of_mem_of_not_mem (by decide) htails).symm)
    exact fun hcurly => ne_of_mem_of_not_mem (by decide) htails hcurly.1.symm
  | literal ht =>
    apply Leads.of_term
    intro ℓ b rest n _ _
    exact .termLiteral ht
  | grouped hopening _ hclosing ih =>
    apply Leads.of_term
    intro ℓ b rest n hlength _
    simp only [List.length_cons, List.length_append, List.length_nil] at hlength
    obtain ⟨m, rfl⟩ := Nat.exists_eq_add_one.mpr (by omega : 0 < ℓ)
    rw [List.cons_append, List.append_assoc]
    apply Derives.termGrouped hopening _ hclosing
    apply ih (by omega)
    · simp [hclosing, TokenKind.tier?]
    · simp [hclosing, nameTails]
  | @field dot name w e _ hdot hname ih =>
    apply ih.attach dot (.field name)
    · rw [hdot, TokenKind.tier?]
    · decide
    · rw [hdot]
      cases e.isField <;> decide
    · intro ℓ b rest n _ hrest
      refine .sufField hdot (.inr ⟨hname, ?_⟩)
      exact (ne_of_mem_of_not_mem (by simp [Expr.isField]) hrest).symm
  | @methodCall dot name opening closing w v e es _ hdot hname hopening _ hclosing ih ihs =>
    apply ih.attach dot (.methodCall name es closing)
    · rw [hdot, TokenKind.tier?]
    · decide
    · rw [hdot]
      cases e.isField <;> decide
    · intro ℓ b rest n hlength hrest
      simp only [List.length_cons, List.length_append, List.length_nil] at hlength
      have harguments := @ihs ℓ true rest n closing (by omega) hclosing
      simpa using Derives.sufMethod hdot hname hopening harguments
  | @call opening closing w v e es _ hfield hopening _ hclosing ih ihs =>
    apply ih.attach opening (.call es closing)
    · rw [hopening, TokenKind.tier?]
    · decide
    · rw [hopening, hfield]
      decide
    · intro ℓ b rest n hlength hrest
      rw [List.length_append] at hlength
      have harguments := @ihs ℓ true rest n closing (by omega) hclosing
      simpa using Derives.sufCall hopening harguments
  | @index opening closing w v e i _ hopening _ hclosing ih ihi =>
    apply ih.attach opening (.index i closing)
    · rw [hopening, TokenKind.tier?]
    · decide
    · rw [hopening]
      cases e.isField <;> decide
    · intro ℓ b rest n hlength hrest
      rw [List.length_append] at hlength
      have hindex := @ihi ℓ true (closing :: rest) n (by omega)
        (by simp [hclosing, TokenKind.tier?]) (by simp [hclosing, nameTails])
      simpa using Derives.sufIndex hopening hindex hclosing
  | argumentsNil =>
    intro ℓ b rest n closing _ hclosing
    exact .listNil hclosing
  | argumentsCons _ _ ih ihs =>
    intro ℓ b rest n closing hlength hclosing
    rw [List.length_append] at hlength
    have hmore := @ihs ℓ b rest n closing (by omega) hclosing
    have hfirst := ih.argument (b := b) (by omega : _ ≤ ℓ) hmore
    have hstart := ne_of_mem_of_not_mem hfirst.starts closeParen_not_mem
    rw [List.append_assoc]
    exact .listCons trivial hstart hfirst hmore
  | moreNil =>
    intro ℓ b rest n closing _ hclosing
    exact .moreNil hclosing
  | moreComma hcomma =>
    intro ℓ b rest n closing _ hclosing
    exact .moreComma hcomma hclosing
  | moreCons hcomma _ _ ih ihs =>
    intro ℓ b rest n closing hlength hclosing
    rw [List.length_cons, List.length_append] at hlength
    have hmore := @ihs ℓ b rest n closing (by omega) hclosing
    have hnext := ih.argument (b := b) (by omega : _ ≤ ℓ) hmore
    have hstart := ne_of_mem_of_not_mem hnext.starts closeParen_not_mem
    rw [List.cons_append, List.append_assoc]
    exact .moreCons trivial hcomma hstart hnext hmore

/-- With a level for each token and one more, a chain is read as what it stands for. -/
theorem StandsFor.read (h : StandsFor .chain w t) (options : ParseOptions) {s : ParseState}
    (hahead : s.cursor.ahead = w ++ rest) (hlevels : w.length < options.maxDepth - s.depth)
    (htier : (kindAt rest 0).tier? = none) (hrest : kindAt rest 0 ∉ nameTails) :
    ∃ e s', (Grammar.expr .lowest).read options s = .ok e s' ∧ e.bare = t.bare ∧
      s'.cursor.ahead = rest := by
  obtain ⟨m, hm⟩ := Nat.exists_eq_add_one.mpr (by omega : 0 < options.maxDepth - s.depth)
  have hderives : Derives options.resolvePatterns (.expr .lowest) (m + 1) s.structLiterals
      ⟨w ++ rest, s.toNames⟩ t ⟨rest, s.toNames⟩ := h.derived (by omega) htier hrest
  obtain ⟨e, s', hread, hnear, he⟩ := hderives.gives (by omega : _ ≤ options.maxDepth) s
    ⟨hm, rfl, by rw [hahead], rfl⟩
  refine ⟨e, s', hread, he, ?_⟩
  -- what is left is the end of what was ahead that is as long as the rest
  have hsound := Phrase.Sound.read ((Goal.sound options options.maxDepth).expr .lowest) hread
  have hsuffix : s'.cursor.ahead <:+ w ++ rest := hahead ▸ hsound.rest_suffix
  have hlength : s'.cursor.ahead.length = rest.length := hnear.length_eq
  have hend := List.suffix_of_suffix_length_le hsuffix (List.suffix_append w rest) hlength.le
  exact hend.eq_of_length hlength

namespace Session

/-- An expression is read that is a tree up to spans, and reading stops before some tokens. -/
def ReadsExpr (s : Session) (t : Expr) (rest : List Token) : Prop :=
  ∃ e, (s.read (Grammar.expr .lowest)).1 = .ok e ∧ e.bare = t.bare ∧
    (s.read (Grammar.expr .lowest)).2.state.cursor.ahead = rest

theorem readsExpr_of_ok {s : Session} {t e : Expr} {rest : List Token} {s' : ParseState}
    (h : (Grammar.expr .lowest).read s.options s.state = .ok e s') (he : e.bare = t.bare)
    (hs' : s'.cursor.ahead = rest) : s.ReadsExpr t rest := by
  rw [ReadsExpr, read_of_ok h]
  exact ⟨e, rfl, he, hs'⟩

/-- Reading from left to right with a bound for tiers agrees with precedence as a matter of the
whole chain. Operands with operators between them group in one way. If no token follows that goes on
with it, a chain is read as what it stands for and exactly to its end, whatever the session has done
before; or levels of nesting are wanting, of which there are enough if more are left than the chain
has tokens. -/
theorem read_chain :
    (∀ e joints, ∃! t, Groups e joints t) ∧
    ∀ (s : Session) w t rest, StandsFor .chain w t → s.state.cursor.ahead = w ++ rest →
      (kindAt rest 0).tier? = none → kindAt rest 0 ∉ nameTails →
      (s.ReadsExpr t rest ∨ ∃ place, (s.read (Grammar.expr .lowest)).1 =
        .error ⟨.nestingTooDeep s.options.maxDepth, place⟩) ∧
      (w.length < s.options.maxDepth - s.state.depth → s.ReadsExpr t rest) := by
  refine ⟨Groups.existsUnique, ?_⟩
  intro s w t rest h hahead htier hrest
  constructor
  · -- with more levels the chain is read, and fewer can only cut the reading off
    let levels := s.options.maxDepth + s.state.depth + w.length + 1
    let options : ParseOptions := { s.options with maxDepth := levels }
    have hlevels : w.length < options.maxDepth - s.state.depth := by
      show w.length < levels - s.state.depth
      omega
    have hmore : s.options.maxDepth ≤ options.maxDepth := by
      show s.options.maxDepth ≤ levels
      omega
    obtain ⟨e, s', hread, he, hs'⟩ := h.read options hahead hlevels htier hrest
    have hresolve : s.options.resolvePatterns = options.resolvePatterns := rfl
    have hcut := Phrase.read_cutOff hresolve hmore (Grammar.expr .lowest)
    rcases hcut s.state with ⟨place, u, hdeep⟩ | hsame
    · right
      refine ⟨place, ?_⟩
      simp [Session.read, hdeep]
    · left
      exact readsExpr_of_ok (hsame.symm.trans hread) he hs'
  · intro hlevels
    obtain ⟨e, s', hread, he, hs'⟩ := h.read s.options hahead hlevels htier hrest
    exact readsExpr_of_ok hread he hs'

/-- A variable is set to a negated field, cast, less a product. -/
theorem read_chain_assignment :
    let name := fixed .identifier
    let x := Expr.path (.ofToken name)
    let operand := [fixed .dash, name, fixed .dot, name, fixed .kwAs, name]
    let tokens := name :: fixed .assignment :: operand ++ [fixed .dash, name, fixed .star, name]
    let s := start (tokens ++ [fixed .semicolon]) "t" ⟨20, true⟩
    ∃ v, StandsFor .operand operand v ∧ (∃ joints, ∃! t, Groups x joints t) ∧
      let difference := Expr.joined (fixed .dash) v (.joined (fixed .star) x x)
      s.ReadsExpr (.joined (fixed .assignment) x difference) [fixed .semicolon] := by
  intro name x operand tokens s
  obtain ⟨hunique, hreads⟩ := read_chain
  have hx : StandsFor .operand [name] x := .operand (.prefixed (.name rfl))
  obtain ⟨v, hv⟩ : ∃ v, StandsFor .operand operand v :=
    ⟨_, .cast (.operand (.unary (.inl rfl) (.prefixed (.field (.name rfl) rfl rfl)))) rfl rfl⟩
  let assign : Joint := ⟨fixed .assignment, .assignment, operand, v, rfl, by decide⟩
  let minus : Joint := ⟨fixed .dash, .additive, [name], x, rfl, by decide⟩
  let times : Joint := ⟨fixed .star, .multiplicative, [name], x, rfl, by decide⟩
  have hoperands : ∀ j ∈ [assign, minus, times], StandsFor .operand j.tokens j.operand := by
    simp [assign, minus, times, hx, hv]
  have hempty (P : Joint → Prop) : ∀ j ∈ [], P j := List.forall_mem_nil P
  have hproduct : Groups x ([] ++ times :: []) (.joined (fixed .star) x x) :=
    .loosest (by simp [times]) (hempty _) (hempty _) (.operand x) (.operand x)
  have htighter : ∀ i ∈ [times], minus.tier < i.tier := by
    simp only [List.forall_mem_singleton]
    decide
  have hdifference : Groups v ([] ++ minus :: [times])
      (.joined (fixed .dash) v (.joined (fixed .star) x x)) :=
    .loosest (by simp [minus, times]) (hempty _) htighter (.operand v) hproduct
  have hgroups : Groups x ([] ++ assign :: [minus, times])
      (.joined (fixed .assignment) x (.joined (fixed .dash) v (.joined (fixed .star) x x))) :=
    .assignment rfl (hempty _) (.operand x) hdifference
  have hchain := StandsFor.chain hx hoperands hgroups
  have hlevels : ([name] ++ Joint.text [assign, minus, times]).length < 20 - 0 := by
    simp [assign, minus, times, operand, Joint.text]
  have hread := hreads s _ _ [fixed .semicolon] hchain rfl rfl (by decide)
  exact ⟨v, hv, ⟨[assign, minus, times], hunique _ _⟩, hread.2 hlevels⟩

end Session

end FrontEnd
