/-!
# Operators of the source language
-/

namespace Awl

inductive BinaryOp where
  | add | subtract | multiply | divide | modulus
  | equals | notEquals
  | lessThan | lessThanOrEqualTo | greaterThan | greaterThanOrEqualTo
  | and | or | xor
  deriving DecidableEq, Repr

/-- What the operands of a binary operator must be. -/
inductive OperandRule where
  /-- Two integers, the result is an integer. -/
  | arithmetic
  /-- Two integers or two characters, the result is a truth value. -/
  | ordering
  /-- Two values of one type, the result is a truth value. -/
  | equality
  /-- Two truth values, the result is a truth value. -/
  | logical
  deriving DecidableEq, Repr

def BinaryOp.rule : BinaryOp → OperandRule
  | .add | .subtract | .multiply | .divide | .modulus => .arithmetic
  | .equals | .notEquals => .equality
  | .lessThan | .lessThanOrEqualTo | .greaterThan | .greaterThanOrEqualTo => .ordering
  | .and | .or | .xor => .logical

/-- How the operator is written in a program. -/
def BinaryOp.text : BinaryOp → String
  | .add => "+"
  | .subtract => "-"
  | .multiply => "*"
  | .divide => "/"
  | .modulus => "%"
  | .equals => "=="
  | .notEquals => "!="
  | .lessThan => "<"
  | .lessThanOrEqualTo => "<="
  | .greaterThan => ">"
  | .greaterThanOrEqualTo => ">="
  | .and => "and"
  | .or => "or"
  | .xor => "xor"

inductive UnaryOp where
  | not | negate
  deriving DecidableEq, Repr

/-- How the operator is written in a program. -/
def UnaryOp.text : UnaryOp → String
  | .not => "!"
  | .negate => "-"

end Awl
