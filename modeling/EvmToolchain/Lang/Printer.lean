import EvmToolchain.Lang.Term

/-!
# EvmToolchain.Lang.Printer

The text of terms in messages: the name of the construct and its named parts.
-/

namespace EvmToolchain

/-- A construct with its parts. -/
def printNode (name : String) (parts : List (String × String)) : String :=
  name ++ "(" ++ ", ".intercalate (parts.map fun (part, text) => part ++ "=" ++ text) ++ ")"

/-- A member of an enumeration, with its symbol. -/
def printMember (enumeration name symbol : String) : String :=
  "<" ++ enumeration ++ "." ++ name ++ ": " ++ Quoted.encode symbol ++ ">"

/-- The text of a region. -/
def Region.print (r : Region) : String :=
  let name := match r with
    | memory => "MEMORY"
    | storage => "STORAGE"
    | callData => "CALL_DATA"
  printMember "Region" name r.symbol

/-- The text of an operator. -/
def Arithmetic.print (op : Arithmetic) : String :=
  let name := match op with
    | add => "ADD"
    | subtract => "SUBTRACT"
    | multiply => "MULTIPLY"
    | divide => "DIVIDE"
    | remainder => "REMAINDER"
    | equals => "EQUALS"
    | notEquals => "NOT_EQUALS"
    | lessThan => "LESS_THAN"
    | lessOrEquals => "LESS_THAN_OR_EQUALS"
    | greaterThan => "GREATER_THAN"
    | greaterOrEquals => "GREATER_THAN_OR_EQUALS"
  printMember "BinOp" name op.symbol

/-- The text of a connective. -/
def Connective.print (op : Connective) : String :=
  let name := match op with
    | and => "LOGICAL_AND"
    | or => "LOGICAL_OR"
  printMember "BinOp" name op.symbol

/-- The text of a literal. -/
def Literal.print (l : Literal) : String :=
  let name := match l.radix with
    | .decimal => "IntLiteral"
    | .hexadecimal => "HexLiteral"
  printNode name [("digits", Quoted.encode l.digits)]

mutual

/-- The text of a term. -/
def Term.print : Term → String
  | .assert condition => printNode "Assert" [("expr", condition.print)]
  | .assign target value => printNode "Assignment" [("lhs", target.print), ("rhs", value.print)]
  | .fail => printNode "Fail" []
  | .goto label => printNode "Goto" [("label", Quoted.encode label)]
  | .ifGoto condition label =>
    printNode "IfGoto" [("expr", condition.print), ("label", Quoted.encode label)]
  | .label name => printNode "Label" [("name", Quoted.encode name)]
  | .revert values => printNode "Revert" [("exprs", "[" ++ printTerms values ++ "]")]
  | .succeed values => printNode "Succeed" [("exprs", "[" ++ printTerms values ++ "]")]
  | .stop => printNode "Stop" []
  | .arithmetic op lhs rhs =>
    printNode "Binary" [("op", op.print), ("lhs", lhs.print), ("rhs", rhs.print)]
  | .connective op lhs rhs =>
    printNode "Binary" [("op", op.print), ("lhs", lhs.print), ("rhs", rhs.print)]
  | .access source index =>
    printNode "ArrayAccess" [("source", source.print), ("index", index.print)]
  | .region r => printNode "MemoryAccess" [("region", r.print)]
  | .literal l => l.print
  | .unknown => printNode "Term" []

/-- The texts of some terms. -/
def printTerms : List Term → String
  | [] => ""
  | [t] => t.print
  | t :: rest => t.print ++ ", " ++ printTerms rest

end

end EvmToolchain
