import ContextFree.Derivation.Replay

/-!
# Derivation forests

The trees of a derivation, one for each variable that is replaced. Each node holds its rule and the
place of that rule in the derivation; below it stand the trees of the variables on the rule's
right-hand side. `Forest.ofDerivation` rebuilds the single tree of a complete derivation, and
`Forest.rules_ofRules` shows that the forest holds the rules it was made of, in order.
-/

namespace ContextFree

/-- An ordered forest, as its first tree and the forest of the other trees. -/
inductive Forest where
  /-- The forest without trees. -/
  | nil
  /-- A first tree, with the rule at its root, the place of that rule in the derivation and the
  trees below it, followed by the other trees. -/
  | cons (index : Nat) (rule : Rule) (children siblings : Forest)
deriving DecidableEq, Repr, Inhabited

namespace Forest

/-- The number of trees. -/
def length : Forest → Nat
  | nil => 0
  | cons _ _ _ siblings => siblings.length + 1

/-- The rules in pre-order. -/
def rules : Forest → Derivation
  | nil => []
  | cons _ rule children siblings => rule :: (children.rules ++ siblings.rules)

/-- The first `n` trees and the others. -/
def splitAt : Nat → Forest → Forest × Forest
  | 0, forest => (nil, forest)
  | _ + 1, nil => (nil, nil)
  | n + 1, cons index rule children siblings =>
    ((cons index rule children (splitAt n siblings).1), (splitAt n siblings).2)

/-- The forest of the given rules, the first of which has place `index`. From the last rule to the
first, a rule takes the next trees as its own, one for each variable on its right-hand side. -/
def ofRules (isTerminal : Symbol → Bool) (index : Nat) : Derivation → Forest
  | [] => nil
  | rule :: rest =>
    let (children, siblings) :=
      (ofRules isTerminal (index + 1) rest).splitAt (rule.variableList isTerminal).length
    cons index rule children siblings

/-- The tree of a complete derivation, or the place of the first rule that does not fit. -/
def ofDerivation (isTerminal : Symbol → Bool) (derivation : Derivation) : Except Nat Forest :=
  match derivation.misfit? isTerminal with
  | some position => .error position
  | none => .ok (ofRules isTerminal 0 derivation)

/-- Dividing a forest loses no rule and keeps their order. -/
theorem rules_splitAt (n : Nat) (forest : Forest) :
    (forest.splitAt n).1.rules ++ (forest.splitAt n).2.rules = forest.rules := by
  induction n generalizing forest with
  | zero => rfl
  | succ n ih =>
    cases forest with
    | nil => rfl
    | cons index rule children siblings => simp [splitAt, rules, ih]

/-- A forest holds the rules it was made of, in order. -/
@[simp] theorem rules_ofRules (isTerminal : Symbol → Bool) (index : Nat) (derivation : Derivation) :
    (ofRules isTerminal index derivation).rules = derivation := by
  induction derivation generalizing index with
  | nil => rfl
  | cons rule rest ih => simp [ofRules, rules, rules_splitAt, ih]

end Forest

end ContextFree
