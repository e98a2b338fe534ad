/-!
# S-expressions
-/
namespace FrontEnd

/-- A word, or a list of s-expressions. -/
inductive Sexpr
  | atom (text : String)
  | list (items : List Sexpr)

namespace Sexpr

mutual
/-- An s-expression as text: the items of a list stand between parentheses with one blank between
neighbours. -/
def render : Sexpr → String
  | .atom text => text
  | .list items => "(" ++ " ".intercalate (renderEach items) ++ ")"
def renderEach : List Sexpr → List String
  | [] => []
  | item :: items => item.render :: renderEach items
end

def headed (head : String) (items : List Sexpr) : Sexpr := .list (.atom head :: items)

theorem renderEach_eq_map (items : List Sexpr) : renderEach items = items.map render := by
  induction items with
  | nil => rfl
  | cons item items ih => simp [renderEach, ih]

end Sexpr

end FrontEnd
