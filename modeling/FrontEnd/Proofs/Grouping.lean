import FrontEnd.Proofs.Precedence
import Mathlib.Logic.ExistsUnique
/-!
# How operands group

Operands with operators between them group as a whole: around the first assignment or, if there is
none, around the last operator of the loosest tier, and so do those on both sides of it. In which
order tokens are read is no matter here.
-/
namespace FrontEnd

/-- An operator that stands between two operands, and the second of them. -/
structure Joint where
  operator : Token
  tier : Tier
  /-- The tokens that the operand is written with. -/
  tokens : List Token
  operand : Expr
  tier_eq : operator.kind.tier? = some tier
  tier_not_mem : tier ∉ [Tier.cast, .call, .member]

/-- Two operands with an operator between them. -/
def Expr.joined (operator : Token) (left right : Expr) : Expr :=
  let span := left.span.to right.span
  if operator.kind = .assignment then .assign left right span
  else if operator.kind.tier? = some .assignment then .compoundAssign operator left right span
  else .binary operator.kind.family operator left right span

/-- How an operand groups with the operators and operands after it. -/
inductive Groups : Expr → List Joint → Expr → Prop
  | operand (e : Expr) : Groups e [] e
  /-- Around the first assignment. -/
  | assignment {e l r : Expr} {j : Joint} {before after : List Joint} : j.tier = .assignment →
    (∀ i ∈ before, i.tier ≠ .assignment) → Groups e before l → Groups j.operand after r →
    Groups e (before ++ j :: after) (.joined j.operator l r)
  /-- Without assignments, around the last operator of the loosest tier. -/
  | loosest {e l r : Expr} {j : Joint} {before after : List Joint} :
    (∀ i ∈ before ++ j :: after, i.tier ≠ .assignment) → (∀ i ∈ before, j.tier ≤ i.tier) →
    (∀ i ∈ after, j.tier < i.tier) → Groups e before l → Groups j.operand after r →
    Groups e (before ++ j :: after) (.joined j.operator l r)

theorem Tier.lt_trans {τ τ' τ'' : Tier} (h : τ < τ') (h' : τ' < τ'') : τ < τ'' := Nat.lt_trans h h'

theorem Tier.lt_of_lt_of_le {τ τ' τ'' : Tier} (h : τ < τ') (h' : τ' ≤ τ'') : τ < τ'' :=
  Nat.lt_of_lt_of_le h h'

/-- Two ways to split a list at a member are the same, or each member stands on one side of the
other. -/
theorem split_eq_or {α : Type} {l l' r r' : List α} {a a' : α} (h : l ++ a :: r = l' ++ a' :: r') :
    l = l' ∧ a = a' ∧ r = r' ∨ a ∈ l' ∧ a' ∈ r ∨ a' ∈ l ∧ a ∈ r' := by
  rcases List.append_eq_append_iff.mp h with ⟨_ | ⟨c, cs⟩, rfl, heq⟩ | ⟨_ | ⟨c, cs⟩, rfl, heq⟩
  · cases heq
    simp
  · cases heq
    simp
  · cases heq
    simp
  · cases heq
    simp

namespace Groups

variable {e t t' : Expr} {joints : List Joint}

theorem unique (h : Groups e joints t) (h' : Groups e joints t') : t = t' := by
  induction h generalizing t' with
  | operand e =>
    generalize hjoints : [] = joints at h'
    cases h' with
    | operand => rfl
    | assignment | loosest => simp at hjoints
  | @assignment e l r j before after hj hbefore _ _ ihl ihr =>
    generalize hjoints : before ++ j :: after = joints at h'
    cases h' with
    | operand => simp at hjoints
    | assignment hj' hbefore' hl hr =>
      rcases split_eq_or hjoints with ⟨rfl, rfl, rfl⟩ | ⟨hmem, -⟩ | ⟨hmem, -⟩
      · rw [ihl hl, ihr hr]
      · exact absurd hj (hbefore' j hmem)
      · exact absurd hj' (hbefore _ hmem)
    | loosest hnone =>
      rw [← hjoints] at hnone
      exact absurd hj (hnone j (by simp))
  | @loosest e l r j before after hnone hbefore hafter _ _ ihl ihr =>
    generalize hjoints : before ++ j :: after = joints at h'
    cases h' with
    | operand => simp at hjoints
    | assignment hj' =>
      rw [hjoints] at hnone
      exact absurd hj' (hnone _ (by simp))
    | loosest _ hbefore' hafter' hl hr =>
      rcases split_eq_or hjoints with ⟨rfl, rfl, rfl⟩ | ⟨hmem, hmem'⟩ | ⟨hmem, hmem'⟩
      · rw [ihl hl, ihr hr]
      · exact absurd (hbefore' j hmem) (Tier.not_le_of_lt (hafter _ hmem'))
      · exact absurd (hbefore _ hmem) (Tier.not_le_of_lt (hafter' j hmem'))

/-- Of some operators one is the last of the loosest tier. -/
theorem exists_loosest (hne : joints ≠ []) :
    ∃ before j after, joints = before ++ j :: after ∧ (∀ i ∈ before, j.tier ≤ i.tier) ∧
      ∀ i ∈ after, j.tier < i.tier := by
  induction joints with
  | nil => exact absurd rfl hne
  | cons i joints ih =>
    by_cases hnil : joints = []
    · subst hnil
      exact ⟨[], i, [], rfl, List.forall_mem_nil _, List.forall_mem_nil _⟩
    · obtain ⟨before, j, after, rfl, hbefore, hafter⟩ := ih hnil
      by_cases hlt : i.tier < j.tier
      · -- all that follow the first one bind more tightly
        refine ⟨[], i, before ++ j :: after, rfl, List.forall_mem_nil _, ?_⟩
        intro k hk
        rcases List.mem_append.mp hk with hk | hk
        · exact Tier.lt_of_lt_of_le hlt (hbefore k hk)
        · rcases List.mem_cons.mp hk with rfl | hk
          · exact hlt
          · exact Tier.lt_trans hlt (hafter k hk)
      · refine ⟨i :: before, j, after, rfl, ?_, hafter⟩
        exact List.forall_mem_cons.mpr ⟨Tier.le_of_not_lt hlt, hbefore⟩

/-- Of some operators with an assignment among them one is the first assignment. -/
theorem exists_first {j : Joint} (hmem : j ∈ joints) (hj : j.tier = .assignment) :
    ∃ before j after, joints = before ++ j :: after ∧ j.tier = .assignment ∧
      ∀ i ∈ before, i.tier ≠ .assignment := by
  induction joints with
  | nil => cases hmem
  | cons i joints ih =>
    by_cases hi : i.tier = .assignment
    · exact ⟨[], i, joints, rfl, hi, List.forall_mem_nil _⟩
    · have hmem : j ∈ joints := by
        rcases List.mem_cons.mp hmem with rfl | hmem
        · exact absurd hj hi
        · exact hmem
      obtain ⟨before, k, after, rfl, hk, hbefore⟩ := ih hmem
      exact ⟨i :: before, k, after, rfl, hk, List.forall_mem_cons.mpr ⟨hi, hbefore⟩⟩

theorem exists_tree (e : Expr) (joints : List Joint) : ∃ t, Groups e joints t := by
  induction hn : joints.length using Nat.strongRecOn generalizing e joints with
  | _ n ih =>
    subst hn
    have hsides {before after : List Joint} {j : Joint} (hjoints : joints = before ++ j :: after) :
        (∃ l, Groups e before l) ∧ ∃ r, Groups j.operand after r := by
      subst hjoints
      constructor
      · exact ih _ (by simp) e before rfl
      · exact ih _ (by simp; omega) j.operand after rfl
    by_cases hassign : ∃ j ∈ joints, j.tier = .assignment
    · obtain ⟨i, hi, hiassign⟩ := hassign
      obtain ⟨before, j, after, rfl, hj, hbefore⟩ := exists_first hi hiassign
      obtain ⟨⟨l, hl⟩, r, hr⟩ := hsides rfl
      exact ⟨_, .assignment hj hbefore hl hr⟩
    · by_cases hne : joints = []
      · exact ⟨e, hne ▸ .operand e⟩
      · obtain ⟨before, j, after, rfl, hbefore, hafter⟩ := exists_loosest hne
        obtain ⟨⟨l, hl⟩, r, hr⟩ := hsides rfl
        have hnone : ∀ i ∈ before ++ j :: after, i.tier ≠ .assignment := by
          intro i hi hi'
          exact hassign ⟨i, hi, hi'⟩
        exact ⟨_, .loosest hnone hbefore hafter hl hr⟩

/-- Operands group in one way. -/
theorem existsUnique (e : Expr) (joints : List Joint) : ∃! t, Groups e joints t := by
  obtain ⟨t, ht⟩ := exists_tree e joints
  exact ⟨t, ht, fun _ ht' => ht'.unique ht⟩

end Groups

end FrontEnd
