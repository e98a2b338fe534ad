import FrontEnd.Proofs.Derivation
/-!
# Progress

What is derived uses up tokens from the front, and all but the forms that may be empty use up one at
least. So no derivation leaves the tokens that it began with.
-/
namespace FrontEnd

def Form.Solid : Form → Prop
  | flag _ | after _ _ | eachAfter _ _ | suffixes _ | jumpValue | otherwise | items => False
  | _ => True

variable {resolve : Bool} {σ : Form} {ℓ : Nat} {b : Bool} {x y : Place} {t : σ.Tree}

theorem Derives.shrinks (h : Derives resolve σ ℓ b x t y) :
    y.rest.length ≤ x.rest.length ∧ (σ.Solid → y.rest.length < x.rest.length) := by
  -- the tokens that a rule names and the parts of it add up
  induction h <;>
    simp_all only [Form.Solid, List.length_cons, true_implies, false_implies, and_true] <;> omega

theorem Derives.length_le (h : Derives resolve σ ℓ b x t y) : y.rest.length ≤ x.rest.length :=
  h.shrinks.1

theorem Derives.length_lt (h : Derives resolve σ ℓ b x t y) (hσ : σ.Solid) :
    y.rest.length < x.rest.length :=
  h.shrinks.2 hσ

theorem Derives.rest_suffix (h : Derives resolve σ ℓ b x t y) : y.rest <:+ x.rest := by
  induction h <;> grind [List.IsSuffix.trans, List.suffix_cons]

/-- A place in a list of tokens: what stands ahead is the list from some token on. -/
def Place.Of (tokens : List Token) (x : Place) : Prop := x.rest <:+ tokens

variable {tokens i : List Token} {n : Names}

theorem Place.of_self (i : List Token) (n : Names) : Place.Of i ⟨i, n⟩ := List.suffix_rfl

theorem Place.Of.next {t : Token} (h : Place.Of tokens ⟨t :: i, n⟩) : Place.Of tokens ⟨i, n⟩ :=
  (List.suffix_cons t i).trans h

theorem Place.Of.rename (h : x.Of tokens) (n : Names) : Place.Of tokens ⟨x.rest, n⟩ := h

theorem Derives.place_of (h : Derives resolve σ ℓ b x t y) (hx : x.Of tokens) : y.Of tokens :=
  h.rest_suffix.trans hx

end FrontEnd
