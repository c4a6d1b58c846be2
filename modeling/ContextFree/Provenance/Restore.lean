import ContextFree.Derivation.Forest
import ContextFree.Provenance.History

/-!
# Undoing the elimination of unit and nulling rules

A rule that stands for a chain of unit rules is replaced by that chain (`expandUnits`). A rule that
was made by deleting symbols is replaced by the rule before the deletions, and each deleted symbol
gets its derivation of the empty word back, at the place where it was deleted (`Forest.restore`).
-/

namespace ContextFree

/-- Replaces every rule made by following unit rules by the rules it stands for. -/
def expandUnits (units : UnitMap) (derivation : Derivation) : Derivation :=
  derivation.flatMap fun rule => units[rule]?.getD [rule]

namespace Expansion

/-- What stands below the places of a right-hand side from `position` on: the derivation of a symbol
that was deleted there, `none` for a variable that was not, nothing for a terminal. -/
def slotsFrom (isTerminal : Symbol → Bool) (position : Nat) :
    List Symbol → List Deletion → List (Option Derivation)
  | [], _ => []
  | s :: rhs, deletions =>
    match deletions.head?.filter (·.position = position) with
    | some deletion =>
      some deletion.derivation :: slotsFrom isTerminal (position + 1) rhs deletions.tail
    | none =>
      (if isTerminal s then [] else [none]) ++ slotsFrom isTerminal (position + 1) rhs deletions

/-- What stands below the right-hand side of the rule before the deletions. -/
def slots (isTerminal : Symbol → Bool) (expansion : Expansion) : List (Option Derivation) :=
  slotsFrom isTerminal 0 expansion.origin.rhs expansion.deletions

/-- Fills the open places with the given parts, in order, and the others with their derivations;
there is no answer when the parts run out, and parts left over are dropped. -/
def fill {α : Type} (ofDerivation : Derivation → α) :
    List (Option Derivation) → List α → Option (List α)
  | [], _ => some []
  | some derivation :: slots, parts =>
    (fill ofDerivation slots parts).map (ofDerivation derivation :: ·)
  | none :: _, [] => none
  | none :: slots, part :: parts => (fill ofDerivation slots parts).map (part :: ·)

end Expansion

namespace Forest

/-- The derivation of a node with its deletions undone, given those of the trees below it. The place
of the node is reported if a tree is missing below it. -/
def restoreNode (isTerminal : Symbol → Bool) (nulling : NullingMap) (index : Nat) (rule : Rule)
    (below : List (Except Nat Derivation)) : Except Nat Derivation :=
  match nulling[rule]? with
  | none => (below.mapM id).map fun parts => rule :: parts.flatten
  | some expansion =>
    -- Errors below count only for the trees that are taken, and only if none is missing.
    match Expansion.fill .ok (expansion.slots isTerminal) below with
    | none => .error index
    | some parts => (parts.mapM id).map fun parts => expansion.origin :: parts.flatten

/-- The derivation of each tree of a forest with its deletions undone. -/
def restore (isTerminal : Symbol → Bool) (nulling : NullingMap) :
    Forest → List (Except Nat Derivation)
  | nil => []
  | cons index rule children siblings =>
    restoreNode isTerminal nulling index rule (children.restore isTerminal nulling) ::
      siblings.restore isTerminal nulling

end Forest

end ContextFree
