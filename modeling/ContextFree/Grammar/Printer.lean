import ContextFree.Grammar.Basic

/-!
# Printing rules

A rule is displayed by the names of its symbols. Names of one character are written without
separators; as soon as one name on the right-hand side is longer or empty, all are separated by
spaces. The empty right-hand side is written `ε`.
-/

namespace ContextFree.Grammar

/-- How the empty right-hand side is written. -/
def emptyMark : String := "ε"

/-- The right-hand side of a rule, by the names of its symbols. -/
def displayRhs (names : List String) : String :=
  if names.isEmpty then emptyMark
  else if names.all (·.length = 1) then String.join names
  else " ".intercalate names

/-- A rule by the names of its symbols, such as `S -> aSb`. -/
def displayRule (g : Grammar) (rule : Rule) : String :=
  g.symbols.nameOf rule.lhs ++ " -> " ++ displayRhs (rule.rhs.map g.symbols.nameOf)

/-- All rules in order, each on a line of its own that ends in a semicolon. -/
def toBnf (g : Grammar) : String :=
  String.join (g.rules.map fun rule => g.displayRule rule ++ ";\n")

end ContextFree.Grammar
