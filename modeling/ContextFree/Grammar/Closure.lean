import ContextFree.Grammar.Basic

/-!
# Closures over right-hand sides

A property of symbols spreads from the right-hand side of a rule to its left-hand side, either when
all symbols there have it or when any of them does. `Grammar.close` adds every symbol that a set
reaches in this way. The symbols that derive the empty word (`Grammar.nullable`) and those that
derive some word of terminals (`Grammar.productive`) are such closures. A rule with an empty
right-hand side spreads nothing by itself; `Grammar.markNulling` adds its left-hand side.
-/

namespace ContextFree

/-- When a property spreads from a right-hand side to the left-hand side. -/
inductive Spread where
  /-- When all symbols of the right-hand side have it. -/
  | all
  /-- When some symbol of the right-hand side has it. -/
  | any
deriving DecidableEq, Repr

/-- Whether the property of being in the set spreads over the rule. -/
def Rule.spreads (mode : Spread) (set : SymbolSet) (rule : Rule) : Bool :=
  match mode with
  | .all => !rule.rhs.isEmpty && rule.rhs.all set.contains
  | .any => rule.rhs.any set.contains

/-- Lets a property spread over the pending rules, for at most as many rounds as `fuel` says. A rule
that the property has spread over is done and need not be looked at again. -/
def SymbolSet.spread (mode : Spread) : (fuel : Nat) → List Rule → SymbolSet → SymbolSet
  | 0, _, set => set
  | fuel + 1, pending, set =>
    let ready := pending.filter (Rule.spreads mode set)
    if ready.isEmpty then set
    else spread mode fuel (pending.filter fun rule => !rule.spreads mode set)
      (set.insertAll (ready.map Rule.lhs))

namespace Grammar

/-- The least set with the given members over which no rule spreads any further. Every round takes a
rule off the pending ones, so there are at most as many rounds as rules. -/
def close (g : Grammar) (mode : Spread) (set : SymbolSet) : SymbolSet :=
  set.spread mode g.rules.length g.rules

/-- Adds the left-hand sides of the rules with an empty right-hand side. A set that covers no symbol
is first made to cover the symbols of the grammar. -/
def markNulling (g : Grammar) (set : SymbolSet) : SymbolSet :=
  (if set.isEmpty then .ofWidth g.symbols.size else set).insertAll
    ((g.rules.filter Rule.isNulling).map Rule.lhs)

/-- The symbols that derive the empty word. -/
def nullable (g : Grammar) : SymbolSet :=
  g.close .all (g.markNulling (.ofWidth g.symbols.size))

/-- Whether the start symbol derives the empty word; false if there is none. -/
def startIsNullable (g : Grammar) : Bool := g.start.any g.nullable.contains

/-- The symbols that derive some word of terminals; a terminal derives itself. -/
def productive (g : Grammar) : SymbolSet := g.close .all (g.markNulling g.terminals)

end Grammar

end ContextFree
