import ContextFree.Grammar.Form
import ContextFree.Grammar.Printer
import ContextFree.Normal.Stage
import ContextFree.Provenance.History

/-!
# Grammars without unit rules

A unit rule is dropped, and in exchange every variable that leads to another one through unit rules
gets the other rules of that variable. The grammar derives the same words. Chains of unit rules are
found breadth first, so the record of a rule made this way is a shortest chain, followed by the rule
at its end.
-/

namespace ContextFree

/-- The variables reached from a first one through unit rules, in the order in which they were
found, each with the chain of rules that leads there. -/
abbrev UnitChains := List (Symbol × Derivation)

namespace Grammar

/-- Notes the variable that a unit rule leads to, unless it was reached before. The rule continues
the given chain. -/
def noteTarget (g : Grammar) (chain : Derivation) (reached : UnitChains) (rule : Rule) :
    UnitChains :=
  match g.unitTarget? rule with
  | none => reached
  | some target =>
    if reached.any (·.1 = target) then reached else reached ++ [(target, chain ++ [rule])]

/-- Follows the unit rules of the variable at the given place among those reached. -/
def followAt (g : Grammar) (reached : UnitChains) (place : Nat) : UnitChains :=
  match reached[place]? with
  | none => reached
  | some (s, chain) => (g.rulesFor s).foldl (g.noteTarget chain) reached

/-- The variables reached from a variable through unit rules, itself first. Each is followed in
turn; there are no more of them than rules, besides the first. -/
def unitChains (g : Grammar) (s : Symbol) : UnitChains :=
  (List.range (g.rules.length + 1)).foldl g.followAt [(s, [])]

/-- The rules that a variable gets for its unit rules, with the chains they stand for. -/
def shortcuts (g : Grammar) (s : Symbol) : List (Rule × Derivation) :=
  -- The first chain is the empty one, from the variable to itself.
  (g.unitChains s).tail.flatMap fun (target, chain) =>
    ((g.rulesFor target).filter fun rule => !g.isUnitRule rule).map fun rule =>
      (⟨s, rule.rhs⟩, chain ++ [rule])

/-- The rules that are not unit rules, followed by the shortcuts of all variables. -/
def unitDraft (g : Grammar) : Draft Derivation :=
  (g.variableList.flatMap g.shortcuts).foldl (fun d (rule, chain) => d.add rule fun _ => chain)
    ⟨g.withoutRules.addRules (g.rules.filter fun rule => !g.isUnitRule rule), []⟩

/-- Eliminates the unit rules. -/
def eliminateUnits (g : Grammar) : Stage UnitMap :=
  let draft := g.unitDraft
  let record : UnitMap := .ofList draft.notes
  { grammar := draft.grammar
    record
    log := draft.notes.map (fun (rule, chain) =>
        .shortcutMade (g.displayRule rule) (chain.length - 1)) ++
      [.unitsEliminated record.size draft.grammar.size] }

end Grammar

end ContextFree
