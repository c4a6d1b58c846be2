import ContextFree.Grammar.Closure
import ContextFree.Grammar.Printer
import ContextFree.Normal.Stage
import ContextFree.Normal.Subset
import ContextFree.Normal.Witness
import ContextFree.Provenance.History

/-!
# Grammars without nulling rules

A rule with an empty right-hand side is dropped, and in exchange every rule gets variants in which
some symbols that derive the empty word are deleted. The grammar derives the same words except for
the empty one. For each variant the record says which rule it comes from, what was deleted, and how
the deleted symbols derive the empty word.
-/

namespace ContextFree.Grammar

/-- The places on the right-hand side of a rule with a symbol of the set. -/
def placesIn (set : SymbolSet) (rule : Rule) : List Nat :=
  (rule.rhs.zipIdx.filter fun (s, _) => set.contains s).map (·.2)

/-- The rule without the symbols at the given places. -/
def deleteAt (rule : Rule) (places : List Nat) : Rule :=
  ⟨rule.lhs, (rule.rhs.zipIdx.filter fun (_, i) => !places.contains i).map (·.1)⟩

/-- How the rule without the symbols at the given places comes from the rule. -/
def expansionAt (w : Witnesses) (rule : Rule) (places : List Nat) : Expansion :=
  ⟨rule, places.map fun i => ⟨i, rule.rhs[i]?.elim [] w.derive⟩⟩

/-- Adds the variant of a rule without the symbols at the given places, unless nothing is left. -/
def addVariant (w : Witnesses) (rule : Rule) (d : Draft Expansion) (places : List Nat) :
    Draft Expansion :=
  if places.length = rule.rhs.length then d
  else d.add (deleteAt rule places) fun _ => expansionAt w rule places

/-- Adds all variants of a rule, in the order in which the deleted places are counted. -/
def addVariants (w : Witnesses) (nullable : SymbolSet) (d : Draft Expansion) (rule : Rule) :
    Draft Expansion :=
  let places := placesIn nullable rule
  Subset.fold places.length (fun d subset => addVariant w rule d (subset.select places)) d

/-- The rules that are not nulling, followed by the variants of all rules. -/
def nullingDraft (g : Grammar) (w : Witnesses) : Draft Expansion :=
  g.rules.foldl (addVariants w w.symbols)
    ⟨g.withoutRules.addRules (g.rules.filter fun rule => !rule.isNulling), []⟩

/-- Eliminates the nulling rules. Rules that mention a symbol which derives nothing any more are
dropped, and so are their records. -/
def eliminateNulling (g : Grammar) : Stage NullingMap :=
  let w := Witnesses.ofGrammar g
  let draft := g.nullingDraft w
  -- A variable whose rules were all nulling has no rules now.
  let productive := draft.grammar.productive
  let result := draft.grammar.retain fun rule => rule.rhs.all productive.contains
  let record : NullingMap := .ofList (draft.notes.filter fun (rule, _) => result.contains rule)
  { grammar := result
    record
    log := draft.notes.map (fun (rule, expansion) =>
        .variantMade (g.displayRule rule) (g.displayRule expansion.origin)) ++
      [.nullingEliminated w.symbols.count record.size result.size] }

end ContextFree.Grammar
