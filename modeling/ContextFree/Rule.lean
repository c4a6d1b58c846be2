import ContextFree.Symbol
import Std.Data.TreeMap

/-!
# Rules

A rule replaces the variable on its left-hand side by the symbols on its right-hand side. Rules are
compared as data, first by the left-hand side and then by the right-hand side as words in
dictionary order; that order is lawful, so rules serve as keys of ordered maps (`RuleMap`). A
derivation is the list of its rules in pre-order.
-/

namespace ContextFree

/-- A rule of a context-free grammar. -/
structure Rule where
  /-- The symbol that is replaced. -/
  lhs : Symbol
  /-- The symbols that replace it. -/
  rhs : List Symbol
deriving DecidableEq, Repr, Inhabited

namespace Rule

/-- Rules compare by their left-hand sides, then by their right-hand sides in dictionary order. -/
instance : Ord Rule := ⟨compareLex (compareOn Rule.lhs) (compareOn Rule.rhs)⟩

instance : Std.TransOrd Rule :=
  inferInstanceAs (Std.TransCmp (compareLex (compareOn Rule.lhs) (compareOn Rule.rhs)))

/-- Rules that compare as equal are equal. -/
theorem eq_of_compare {a b : Rule} (h : compare a b = .eq) : a = b := by
  have h' : (compare a.lhs b.lhs).then (compare a.rhs b.rhs) = .eq := h
  have ⟨hl, hr⟩ := Ordering.then_eq_eq.1 h'
  cases a; cases b
  simp only at hl hr
  rw [Std.LawfulEqOrd.eq_of_compare hl, Std.LawfulEqOrd.eq_of_compare hr]

instance : Std.LawfulEqOrd Rule where
  compare_self := Std.ReflCmp.compare_self
  eq_of_compare := eq_of_compare

/-- Whether the rule replaces its left-hand side by nothing. -/
def isNulling (rule : Rule) : Bool := rule.rhs.isEmpty

/-- A rule as it is written inside error messages. -/
def describe (rule : Rule) : String :=
  "CfgRule \x7b lhs: " ++ rule.lhs.describe ++ ", rhs: [" ++
    ", ".intercalate (rule.rhs.map Symbol.describe) ++ "] \x7d"

end Rule

/-- A derivation, as its rules in pre-order: the rule of a node comes before the rules below it, and
the rules below its first variable before those below the next. -/
abbrev Derivation := List Rule

/-- A map from rules, ordered as rules compare. -/
abbrev RuleMap (α : Type) := Std.TreeMap Rule α

end ContextFree
