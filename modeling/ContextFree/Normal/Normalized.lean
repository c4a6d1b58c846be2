import ContextFree.Normal.Binarize
import ContextFree.Normal.NullingFree
import ContextFree.Normal.UnitFree
import ContextFree.Normal.Useful

/-!
# Normalized grammars

A grammar is normalized by removing its useless rules, its nulling rules and its unit rules, in this
order, and converting what is left into Chomsky normal form. A grammar that is in normal form to
begin with is taken as it is. Beside the grammar the result has the history that leads back.
-/

namespace ContextFree

/-- A grammar in Chomsky normal form and how it came about. -/
structure Normalized where
  /-- The grammar in normal form. -/
  grammar : Grammar
  /-- What the stages did that changed something. -/
  history : History
  /-- Whether the grammar was in normal form to begin with. -/
  shortCircuited : Bool

namespace Grammar

/-- Normalizes a grammar stage by stage. -/
def normalizeFully (g : Grammar) : Run NormalizeError Normalized := do
  let useful ← Run.ofExcept g.removeUseless >>= Stage.run
  let nullingFree ← useful.grammar.eliminateNulling.run
  let unitFree ← nullingFree.grammar.eliminateUnits.run
  let normal ← Run.ofExcept unitFree.grammar.toNormalForm >>= Stage.run
  Run.emit [.normalized g.size normal.grammar.size]
  return {
    grammar := normal.grammar
    history := ((History.empty.setNulling nullingFree.record).setUnits unitFree.record).setSplit
      normal.record
    shortCircuited := false }

/-- Normalizes a grammar, unless it is in normal form already. -/
def normalize (g : Grammar) : Run NormalizeError Normalized := do
  let start ← Run.ofExcept g.validStart
  if !g.isNormal then g.normalizeFully
  else if (g.rulesFor start).isEmpty then Run.fail (.noStartRule start)
  else
    Run.emit [.alreadyNormal g.size]
    return { grammar := g, history := .empty, shortCircuited := true }

end Grammar

end ContextFree
