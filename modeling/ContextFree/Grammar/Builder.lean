import ContextFree.Grammar.Basic

/-!
# Building rules step by step

A builder adds rules to a grammar by naming a left-hand side once and then one right-hand side after
the other. A right-hand side before any left-hand side is an error (`RuleBuilder.rhs_eq_error_iff`);
what was added up to there stays.
-/

namespace ContextFree

/-- A grammar under construction, with the left-hand side that the next rules get. -/
structure RuleBuilder where
  /-- The grammar built so far. -/
  grammar : Grammar
  /-- The left-hand side named last. -/
  lhs : Option Symbol := none

namespace RuleBuilder

/-- Why no rule could be built. -/
inductive BuildError where
  /-- A right-hand side was given before any left-hand side. -/
  | missingLhs
deriving DecidableEq, Repr

/-- The message for a rule that could not be built. -/
def BuildError.message : BuildError → String
  | .missingLhs => "rule builder needs a LHS before `rhs`"

/-- Names the left-hand side of the rules that follow. -/
def rule (b : RuleBuilder) (lhs : Symbol) : RuleBuilder := { b with lhs := some lhs }

/-- Adds the rule with the left-hand side named last and the given right-hand side. -/
def rhs (b : RuleBuilder) (symbols : List Symbol) : Except BuildError RuleBuilder :=
  match b.lhs with
  | none => .error .missingLhs
  | some lhs => .ok { b with grammar := b.grammar.addRule ⟨lhs, symbols⟩ }

/-- A right-hand side is refused exactly when no left-hand side was named. -/
theorem rhs_eq_error_iff {b : RuleBuilder} {symbols : List Symbol} :
    b.rhs symbols = .error .missingLhs ↔ b.lhs = none := by
  unfold rhs; split <;> simp_all

end RuleBuilder

end ContextFree
