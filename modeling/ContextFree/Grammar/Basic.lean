import ContextFree.Rule
import ContextFree.Symbol.Table
import ContextFree.Symbol.Set

/-!
# Grammars

A context-free grammar has a table of symbols, a set of terminals, an ordered list of rules and
perhaps a start symbol. Every symbol that is not a terminal counts as a variable. A rule is added
at the end of the list, and only once (`Grammar.mem_rules_addRule`, `Grammar.nodup_addRule`).
-/

namespace ContextFree

/-- A context-free grammar. -/
structure Grammar where
  /-- The symbols and their names. -/
  symbols : SymbolTable := .empty
  /-- The terminal symbols. -/
  terminals : SymbolSet := .empty
  /-- The rules, in the order in which they were added. -/
  rules : List Rule := []
  /-- The symbol that derivations start from. -/
  start : Option Symbol := none
deriving DecidableEq

namespace Grammar

/-- The grammar without symbols and rules. -/
def empty : Grammar := {}

instance : Inhabited Grammar := ⟨empty⟩

/-- The grammar with the same symbols, terminals and start, and without rules. -/
def withoutRules (g : Grammar) : Grammar := { g with rules := [] }

/-- The symbol that is made next. -/
def next (g : Grammar) : Symbol := g.symbols.next

/-- Makes one more variable, which is `g.next`. -/
def addVariable (g : Grammar) (name : Option String) : Grammar :=
  { g with symbols := g.symbols.add name }

/-- Makes one more terminal, which is `g.next`. -/
def addTerminal (g : Grammar) (name : String) : Grammar :=
  { g with symbols := g.symbols.add (some name), terminals := g.terminals.insert g.next }

/-- Makes a variable for each name of a list; the symbols made come first in the result. -/
def addVariables (g : Grammar) (names : List (Option String)) : List Symbol × Grammar :=
  let (made, symbols) := g.symbols.addAll names
  (made, { g with symbols })

/-- Lets derivations start from the given symbol. -/
def setStart (g : Grammar) (start : Symbol) : Grammar := { g with start := some start }

/-- Whether the symbol was made by this grammar. -/
def knows (g : Grammar) (s : Symbol) : Bool := g.symbols.knows s

/-- Whether the symbol is a terminal. -/
def isTerminal (g : Grammar) (s : Symbol) : Bool := g.terminals.contains s

/-- Whether the symbol is a variable: any symbol that is not a terminal. -/
def isVariable (g : Grammar) (s : Symbol) : Bool := !g.isTerminal s

/-- The variables made by this grammar, used or not, in order. -/
def variableList (g : Grammar) : List Symbol := g.symbols.symbols.filter g.isVariable

/-- The number of rules. -/
def size (g : Grammar) : Nat := g.rules.length

/-- Whether the grammar has the rule. -/
def contains (g : Grammar) (rule : Rule) : Bool := g.rules.contains rule

/-- The rules for a symbol, in order. -/
def rulesFor (g : Grammar) (lhs : Symbol) : List Rule := g.rules.filter (·.lhs = lhs)

/-- Adds a rule at the end, or gives `none` if the grammar has it already. -/
def addRule? (g : Grammar) (rule : Rule) : Option Grammar :=
  if g.contains rule then none else some { g with rules := g.rules ++ [rule] }

/-- Adds a rule at the end, unless the grammar has it already. -/
def addRule (g : Grammar) (rule : Rule) : Grammar := (g.addRule? rule).getD g

/-- Adds rules one after the other, leaving out those that are there already. -/
def addRules (g : Grammar) (rules : List Rule) : Grammar := rules.foldl addRule g

/-- Keeps the rules that pass the test; the test is given the place of each rule, too. -/
def retainIdx (g : Grammar) (keep : Nat → Rule → Bool) : Grammar :=
  { g with rules := (g.rules.zipIdx.filter fun (rule, i) => keep i rule).map (·.1) }

/-- Keeps the rules that pass the test. -/
def retain (g : Grammar) (keep : Rule → Bool) : Grammar :=
  { g with rules := g.rules.filter keep }

/-- A rule is there after `addRule` if it was before or is the one added. -/
@[simp] theorem mem_rules_addRule {g : Grammar} {rule r : Rule} :
    r ∈ (g.addRule rule).rules ↔ r ∈ g.rules ∨ r = rule := by
  unfold addRule addRule? contains
  split
  · next h =>
    have : rule ∈ g.rules := by simpa using h
    simp only [Option.getD_none]
    exact ⟨.inl, fun h => h.elim id fun e => e ▸ this⟩
  · simp

/-- Adding a rule keeps the rules distinct. -/
theorem nodup_addRule {g : Grammar} (rule : Rule) (h : g.rules.Nodup) :
    (g.addRule rule).rules.Nodup := by
  unfold addRule addRule? contains
  split
  · simpa using h
  · next hr =>
    have : rule ∉ g.rules := by simpa using hr
    simp only [Option.getD_some]
    exact List.nodup_append.2 ⟨h, by simp, fun a ha b hb => by
      rintro rfl; exact this (List.mem_singleton.1 hb ▸ ha)⟩

@[simp] theorem symbols_addRule (g : Grammar) (rule : Rule) :
    (g.addRule rule).symbols = g.symbols := by
  unfold addRule addRule?; split <;> rfl

@[simp] theorem terminals_addRule (g : Grammar) (rule : Rule) :
    (g.addRule rule).terminals = g.terminals := by
  unfold addRule addRule?; split <;> rfl

@[simp] theorem start_addRule (g : Grammar) (rule : Rule) :
    (g.addRule rule).start = g.start := by
  unfold addRule addRule?; split <;> rfl

end Grammar

end ContextFree
