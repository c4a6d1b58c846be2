import ContextFree.Grammar.Basic

/-!
# Forms of rules

Rules are told apart by the shape of their right-hand sides. In Chomsky normal form a rule either
derives one terminal or replaces a variable by two variables; `NormalRule` has one constructor for
each, and `Grammar.normalRule?` finds the form of a rule without losing anything
(`Grammar.toRule_of_normalRule?`).
-/

namespace ContextFree

/-- A rule that replaces a variable by two variables. -/
structure BinaryRule where
  /-- The variable that is replaced. -/
  lhs : Symbol
  /-- The first variable that replaces it. -/
  left : Symbol
  /-- The second variable that replaces it. -/
  right : Symbol
deriving DecidableEq, Repr

/-- The rule as a rule of any form. -/
def BinaryRule.toRule (rule : BinaryRule) : Rule := ⟨rule.lhs, [rule.left, rule.right]⟩

/-- A rule in Chomsky normal form. -/
inductive NormalRule where
  /-- The variable derives the terminal. -/
  | lexical (lhs terminal : Symbol)
  /-- The variable is replaced by two variables. -/
  | binary (rule : BinaryRule)
deriving DecidableEq, Repr

/-- The rule as a rule of any form. -/
def NormalRule.toRule : NormalRule → Rule
  | .lexical lhs terminal => ⟨lhs, [terminal]⟩
  | .binary rule => rule.toRule

namespace Grammar

/-- The variable that a unit rule leads to; `none` for any other rule. A unit rule replaces its
left-hand side by a single variable. -/
def unitTarget? (g : Grammar) (rule : Rule) : Option Symbol :=
  match rule.rhs with
  | [s] => if g.isVariable s then some s else none
  | _ => none

/-- Whether the rule is a unit rule. -/
def isUnitRule (g : Grammar) (rule : Rule) : Bool := (g.unitTarget? rule).isSome

/-- The form of a rule in Chomsky normal form; `none` for any other rule. -/
def normalRule? (g : Grammar) (rule : Rule) : Option NormalRule :=
  match rule.rhs with
  | [a] => if g.isTerminal a then some (.lexical rule.lhs a) else none
  | [b, c] => if g.isVariable b && g.isVariable c then some (.binary ⟨rule.lhs, b, c⟩) else none
  | _ => none

/-- Whether the rule is in Chomsky normal form. -/
def isNormalRule (g : Grammar) (rule : Rule) : Bool := (g.normalRule? rule).isSome

/-- Whether every rule is in Chomsky normal form. -/
def isNormal (g : Grammar) : Bool := g.rules.all g.isNormalRule

/-- The form of a rule determines the rule. -/
theorem toRule_of_normalRule? {g : Grammar} {rule : Rule} {form : NormalRule}
    (h : g.normalRule? rule = some form) : form.toRule = rule := by
  obtain ⟨lhs, rhs⟩ := rule
  unfold normalRule? at h
  split at h <;> simp only [Option.ite_none_right_eq_some, Option.some.injEq, reduceCtorEq] at h
  · next he => obtain ⟨_, rfl⟩ := h; simp_all [NormalRule.toRule]
  · next he => obtain ⟨_, rfl⟩ := h; simp_all [NormalRule.toRule, BinaryRule.toRule]

end Grammar

end ContextFree
