import ContextFree.Grammar.Closure
import ContextFree.Grammar.Reachability
import ContextFree.Normal.Stage

/-!
# Grammars without useless rules

A rule is useful when it occurs in some derivation of a word of terminals from the start symbol.
Rules with symbols that derive no word of terminals are dropped first, and then those for variables
that cannot be reached with the rules that are left, so that a variable which is reached only
through dropped rules goes, too.
-/

namespace ContextFree.Grammar

/-- The grammar without the rules that mention a symbol which derives no word of terminals. -/
def productivePart (g : Grammar) : Grammar :=
  let productive := g.productive
  g.retain fun rule => productive.contains rule.lhs && rule.rhs.all productive.contains

/-- The grammar without the rules for variables that cannot be reached from the given symbol. -/
def reachablePart (g : Grammar) (start : Symbol) : Grammar :=
  let reachable := g.reachableFrom start
  g.retain fun rule => reachable.contains rule.lhs

/-- Removes the useless rules of a valid grammar. -/
def removeUseless (g : Grammar) : Except NormalizeError (Stage Unit) :=
  g.validStart.map fun start =>
    let useful := g.productivePart.reachablePart start
    { grammar := useful
      record := ()
      log := [.uselessRemoved (g.size - useful.size) g.size] }

end ContextFree.Grammar
