import ContextFree.Rule
import ContextFree.Symbol.Set

/-!
# Histories of rules

What each stage of normalization keeps about the rules it makes, so that a derivation with its rules
can be turned into one with the rules before it: where symbols were deleted (`Expansion`), which
chain of unit rules a rule stands for, and into which rules a rule was split (`SplitMap`). A
`History` holds the records of the stages that changed something.
-/

namespace ContextFree

/-- A symbol that was deleted from a right-hand side. -/
structure Deletion where
  /-- The place of the symbol on the right-hand side. -/
  position : Nat
  /-- A derivation of the empty word from the symbol. -/
  derivation : Derivation
deriving DecidableEq, Repr

/-- How a rule comes from another one by deleting symbols of its right-hand side. -/
structure Expansion where
  /-- The rule before the deletions. -/
  origin : Rule
  /-- The symbols deleted, by their places. -/
  deletions : List Deletion
deriving DecidableEq, Repr

/-- The rule before the deletions, followed by the derivations of the empty word from the symbols
deleted. -/
def Expansion.rules (expansion : Expansion) : Derivation :=
  expansion.origin :: expansion.deletions.flatMap Deletion.derivation

/-- For rules made by deleting symbols: how they came about. -/
abbrev NullingMap := RuleMap Expansion

/-- For rules made by following unit rules: the unit rules followed and the rule at the end. -/
abbrev UnitMap := RuleMap Derivation

/-- For each rule: the rules it was split into, in pre-order, and the variables made for that. -/
structure SplitMap where
  /-- The rules that each rule was split into. -/
  splits : RuleMap Derivation := ∅
  /-- The variables introduced by splitting. -/
  introduced : SymbolSet := .empty

namespace SplitMap

/-- The map without entries. -/
def empty : SplitMap := {}

/-- Records the rules that a rule was split into, in pre-order of the split. -/
def insert (m : SplitMap) (rule : Rule) (split : Derivation) : SplitMap :=
  { m with splits := m.splits.insert rule split }

/-- Records a variable introduced by splitting. -/
def markIntroduced (m : SplitMap) (s : Symbol) : SplitMap :=
  { m with introduced := m.introduced.insert s }

/-- Whether the variable was introduced by splitting. -/
def isIntroduced (m : SplitMap) (s : Symbol) : Bool := m.introduced.contains s

/-- The rules that a rule was split into. -/
def get? (m : SplitMap) (rule : Rule) : Option Derivation := m.splits[rule]?

/-- The number of rules with an entry. -/
def size (m : SplitMap) : Nat := m.splits.size

/-- Whether every rule was split into itself alone. -/
def isIdentity (m : SplitMap) : Bool := m.splits.toList.all fun (rule, split) => split == [rule]

/-- The rule whose split begins with the given rule, and that split; the last one in the order of
the map if there are several. -/
def groupOf? (m : SplitMap) (top : Rule) : Option (Rule × Derivation) :=
  m.splits.toList.reverse.find? fun (_, split) => split.head? == some top

end SplitMap

/-- The records of all stages of normalization. A stage that changed nothing leaves none. -/
structure History where
  /-- The record of the elimination of nulling rules. -/
  nulling : Option NullingMap := none
  /-- The record of the elimination of unit rules. -/
  units : Option UnitMap := none
  /-- The record of the split into normal form. -/
  split : Option SplitMap := none

namespace History

/-- The history of a grammar that needed no normalization. -/
def empty : History := {}

/-- The history with the given record of the elimination of nulling rules; one without entries does
not count. -/
def setNulling (h : History) (nulling : NullingMap) : History :=
  { h with nulling := if nulling.isEmpty then none else some nulling }

/-- The history with the given record of the elimination of unit rules; one without entries does not
count. -/
def setUnits (h : History) (units : UnitMap) : History :=
  { h with units := if units.isEmpty then none else some units }

/-- The history with the given record of the split into normal form; one that splits every rule into
itself does not count. -/
def setSplit (h : History) (split : SplitMap) : History :=
  { h with split := if split.isIdentity then none else some split }

/-- Whether no stage left a record. -/
def isEmpty (h : History) : Bool := h.nulling.isNone && h.units.isNone && h.split.isNone

end History

end ContextFree
