import Transclude.Condition.Eval
import Transclude.Condition.Expr
import Transclude.Condition.Parser

namespace Transclude

structure Condition where
  source : String
  expr : Expr
  deriving DecidableEq

namespace Condition

def compile (source : String) : Except ConditionError Condition := do
  let expr ← Expr.parse source
  return ⟨Text.trim source, expr⟩

def print (record : String) (c : Condition) : String := c.expr.print record

def holds (c : Condition) (options : Json) : Bool := (c.expr.eval options).isTruthy

end Condition

end Transclude
