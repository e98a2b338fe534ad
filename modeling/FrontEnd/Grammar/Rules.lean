import FrontEnd.Grammar.Expression
import FrontEnd.Grammar.Statement
/-!
# The rules of the grammar

The rule of a goal is the phrase that reads it. Rules reach each other through goals alone.
-/
namespace FrontEnd.Grammar

def rule : (g : Goal) → Phrase g.Tree
  | .expr above => exprRule above
  | .blockLike => blockLikeRule
  | .block => blockRule
  | .element => elementRule
  | .elseIf => conditional
  | .arm => armRule
  | .ty => tyRule
  | .pattern => patternRule

end FrontEnd.Grammar
