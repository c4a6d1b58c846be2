import ContextFree.Rule

/-!
# Leftmost derivations

A derivation in pre-order is replayed by applying each rule to the leftmost variable that was not
yet replaced. `Derivation.replay` does so on the symbols themselves. `Derivation.misfit?` starts
from the left-hand side of the first rule and keeps only the variables that are still pending; it
finds the first rule that cannot be applied, and none exactly when the rules make up a complete
derivation.
-/

namespace ContextFree

/-- The variables on the right-hand side of a rule, in order. -/
def Rule.variableList (isTerminal : Symbol → Bool) (rule : Rule) : List Symbol :=
  rule.rhs.filter fun s => !isTerminal s

/-- Replaces the leftmost variable by the right-hand side of the rule; there is no answer when that
variable is not the rule's left-hand side. -/
def Rule.applyLeftmost (isTerminal : Symbol → Bool) (rule : Rule) :
    List Symbol → Option (List Symbol)
  | [] => none
  | s :: rest =>
    if isTerminal s then (rule.applyLeftmost isTerminal rest).map (s :: ·)
    else if rule.lhs = s then some (rule.rhs ++ rest)
    else none

namespace Derivation

/-- Applies the rules one after the other, each to the leftmost variable. -/
def replay (isTerminal : Symbol → Bool) : Derivation → List Symbol → Option (List Symbol)
  | [], form => some form
  | rule :: rest, form => (rule.applyLeftmost isTerminal form).bind (replay isTerminal rest)

/-- The place of the first rule that does not replace the leftmost of the pending variables, or
beyond the last rule if variables stay pending. The first rule has place `position`. -/
def misfitFrom (isTerminal : Symbol → Bool) (position : Nat) : List Symbol → Derivation → Option Nat
  | [], [] => none
  | [], _ :: _ => some position
  | _ :: _, [] => some position
  | s :: pending, rule :: rest =>
    if rule.lhs = s then
      misfitFrom isTerminal (position + 1) (rule.variableList isTerminal ++ pending) rest
    else some position

/-- The place of the first rule that does not fit, in a derivation from the left-hand side of its
first rule. -/
def misfit? (isTerminal : Symbol → Bool) : Derivation → Option Nat
  | [] => some 0
  | rule :: rest => misfitFrom isTerminal 0 [rule.lhs] (rule :: rest)

/-- Replaying a derivation in two parts is replaying one after the other. -/
theorem replay_append (isTerminal : Symbol → Bool) (first second : Derivation)
    (form : List Symbol) :
    replay isTerminal (first ++ second) form =
      (replay isTerminal first form).bind (replay isTerminal second) := by
  induction first generalizing form with
  | nil => rfl
  | cons rule rest ih =>
    simp only [List.cons_append, replay, Option.bind_assoc]
    exact congrArg _ (funext ih)

end Derivation

end ContextFree
