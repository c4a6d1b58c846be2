import ContextFree.Derivation.Forest
import ContextFree.Provenance.History

/-!
# Undoing the split into normal form

A derivation over split rules is brought back to the rules before the split by grouping: a node
whose rule begins a split, together with the nodes of introduced variables below it, becomes one
rule, provided that these nodes carry exactly the rules of that split. A node that belongs to no
such group is kept as it is.
-/

namespace ContextFree

/-- What became of a node of a derivation over split rules. -/
inductive Group where
  /-- The node belongs to no complete group, and its rule stays. -/
  | kept (rule : Rule)
  /-- The node and the introduced ones below it stand for the rule before the split. -/
  | grouped (origin : Rule)
deriving DecidableEq, Repr

namespace Group

/-- The rule that a group contributes to the derivation before the split. -/
def rule : Group → Rule
  | kept rule => rule
  | grouped origin => origin

/-- The rule of a node that belongs to no complete group. -/
def kept? : Group → Option Rule
  | kept rule => some rule
  | grouped _ => none

end Group

namespace Forest

/-- The rules of the topmost nodes of introduced variables, down to the first node of any other
variable on each branch, in pre-order. -/
def region (m : SplitMap) : Forest → Derivation
  | nil => []
  | cons _ rule children siblings =>
    (if m.isIntroduced rule.lhs then rule :: children.region m else []) ++ siblings.region m

/-- The rule before the split that a node stands for, given the trees below the node. -/
def origin? (m : SplitMap) (rule : Rule) (children : Forest) : Option Rule :=
  match m.groupOf? rule with
  | some (origin, split) => if rule :: children.region m = split then some origin else none
  | none => none

/-- The groups of a forest, in pre-order. While `absorbed` holds, the trees stand directly below a
complete group, and nodes of introduced variables belong to it. -/
def groups (m : SplitMap) : (absorbed : Bool) → Forest → List Group
  | _, nil => []
  | absorbed, cons _ rule children siblings =>
    -- A node that the group above has taken contributes no rule of its own.
    (if absorbed && m.isIntroduced rule.lhs then children.groups m true
    else match origin? m rule children with
      | some origin => .grouped origin :: children.groups m true
      | none => .kept rule :: children.groups m false) ++ siblings.groups m absorbed

end Forest

end ContextFree
