import ContextFree.Grammar.Basic

/-!
# Witnesses of the empty word

A witness for a symbol is a rule from which a derivation of the empty word can be completed: each
symbol on its right-hand side has a witness that was found before. Following witnesses therefore
comes to an end, and `Witnesses.derive` writes down the derivation.
-/

namespace ContextFree

/-- Rules that begin a derivation of the empty word, the one found last first; at most one for each
symbol. -/
abbrev Witnesses := List Rule

namespace Witnesses

/-- Whether the symbol has a witness. -/
def covers (w : Witnesses) (s : Symbol) : Bool := w.any (·.lhs = s)

/-- Takes a rule as a witness if its left-hand side has none and every symbol on its right-hand side
does. -/
def consider (w : Witnesses) (rule : Rule) : Witnesses :=
  if !w.covers rule.lhs && rule.rhs.all w.covers then rule :: w else w

/-- Considers rules again and again until nothing changes, at most as often as `fuel` says. -/
def saturate (rules : List Rule) : (fuel : Nat) → Witnesses → Witnesses
  | 0, w => w
  | fuel + 1, w =>
    let w' := rules.foldl consider w
    if w'.length = w.length then w else saturate rules fuel w'

/-- The witnesses of a grammar: rules with an empty right-hand side come before all others. There is
at most one witness for each rule, so as many rounds as there are rules suffice. -/
def ofGrammar (g : Grammar) : Witnesses :=
  saturate g.rules g.rules.length ((g.rules.filter Rule.isNulling).foldl consider [])

/-- The symbols that have a witness. -/
def symbols (w : Witnesses) : SymbolSet := .ofList (w.map Rule.lhs)

/-- A derivation of the empty word from a symbol; no rules at all for a symbol without a witness. -/
def derive : Witnesses → Symbol → Derivation
  | [], _ => []
  | rule :: earlier, s =>
    if rule.lhs = s then rule :: rule.rhs.flatMap (derive earlier) else derive earlier s

end Witnesses

end ContextFree
