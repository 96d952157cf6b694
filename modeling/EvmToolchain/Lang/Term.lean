import EvmToolchain.Lang.Literal

/-!
# EvmToolchain.Lang.Term

The language that is compiled: statements over storage, memory and call data,
with jumps to named labels, and expressions over words.

Statements and expressions form one type, since a statement may stand where
an expression is expected. Such a program compiles like any other.
-/

namespace EvmToolchain

/-- What can be indexed like an array. -/
inductive Region
  | memory
  | storage
  | callData
  deriving Repr, DecidableEq

/-- Binary operators that evaluate both operands. -/
inductive Arithmetic
  | add | subtract | multiply | divide | remainder
  | equals | notEquals | lessThan | lessOrEquals | greaterThan | greaterOrEquals
  deriving Repr, DecidableEq

/-- Binary operators that evaluate the right operand only if the left one does
not decide the outcome. -/
inductive Connective
  | and
  | or
  deriving Repr, DecidableEq

namespace Arithmetic

/-- All operators that evaluate both operands. -/
def all : List Arithmetic :=
  [add, subtract, multiply, divide, remainder,
    equals, notEquals, lessThan, lessOrEquals, greaterThan, greaterOrEquals]

/-- How the operator is written. -/
def symbol : Arithmetic → String
  | add => "+"
  | subtract => "-"
  | multiply => "*"
  | divide => "/"
  | remainder => "%"
  | equals => "=="
  | notEquals => "!="
  | lessThan => "<"
  | lessOrEquals => "<="
  | greaterThan => ">"
  | greaterOrEquals => ">="

theorem mem_all (op : Arithmetic) : op ∈ all := by cases op <;> decide

/-- The operator that is written this way. -/
def ofSymbol? (s : String) : Option Arithmetic := all.find? (·.symbol == s)

theorem ofSymbol?_symbol (op : Arithmetic) : ofSymbol? op.symbol = some op := by
  cases op <;> decide

end Arithmetic

namespace Connective

/-- How the connective is written. -/
def symbol : Connective → String
  | and => "&&"
  | or => "||"

/-- The connective that is written this way. -/
def ofSymbol? (s : String) : Option Connective := [and, or].find? (·.symbol == s)

theorem ofSymbol?_symbol (op : Connective) : ofSymbol? op.symbol = some op := by
  cases op <;> decide

end Connective

namespace Region

/-- How the region is written. -/
def symbol : Region → String
  | memory => "memory"
  | storage => "storage"
  | callData => "calldata"

/-- The region that is written this way. -/
def ofSymbol? (s : String) : Option Region :=
  [memory, storage, callData].find? (·.symbol == s)

theorem ofSymbol?_symbol (r : Region) : ofSymbol? r.symbol = some r := by
  cases r <;> decide

end Region

/-- A statement or an expression. -/
inductive Term
  /-- Fail unless the condition holds. -/
  | assert (condition : Term)
  | assign (target value : Term)
  | fail
  | goto (label : String)
  | ifGoto (condition : Term) (label : String)
  | label (name : String)
  /-- End with failure and hand back the values. -/
  | revert (values : List Term)
  /-- End with success and hand back the values. -/
  | succeed (values : List Term)
  | stop
  | arithmetic (op : Arithmetic) (lhs rhs : Term)
  | connective (op : Connective) (lhs rhs : Term)
  /-- The word at an index of the source, which should be a region. -/
  | access (source index : Term)
  | region (r : Region)
  | literal (l : Literal)
  /-- A term of no known kind. -/
  | unknown
  deriving Repr

/-- A binary operation, whose operator is given by its symbol. -/
def Term.binary? (symbol : String) (lhs rhs : Term) : Option Term :=
  match Connective.ofSymbol? symbol with
  | some op => some (.connective op lhs rhs)
  | none => (Arithmetic.ofSymbol? symbol).map (.arithmetic · lhs rhs)

end EvmToolchain
