import ContextFree.Grammar.Basic

/-!
# Relations between symbols and reachability

A relation between the symbols of a grammar is kept as one row for each symbol: the set of symbols
it is related to. A symbol derives directly whatever stands on the right-hand side of a rule for it;
closing that relation under composition pivot by pivot (`SymbolRelation.transitive`) and adding the
diagonal (`SymbolRelation.reflexive`) gives reachability.
-/

namespace ContextFree

/-- A relation between symbols, as the set of related symbols for each symbol in order. -/
structure SymbolRelation where
  /-- The row of each symbol. -/
  rows : List SymbolSet
deriving DecidableEq

namespace SymbolRelation

/-- How many symbols the relation is about. -/
def size (r : SymbolRelation) : Nat := r.rows.length

/-- The relation between `n` symbols that never holds. -/
def ofSize (n : Nat) : SymbolRelation := ⟨List.replicate n .empty⟩

/-- The symbols that a symbol is related to; none for a symbol that the relation is not about. -/
def row (r : SymbolRelation) (s : Symbol) : SymbolSet := r.rows[s.id]?.getD .empty

/-- Relates the first symbol to every one of the others. -/
def relate (r : SymbolRelation) (s : Symbol) (others : List Symbol) : SymbolRelation :=
  ⟨r.rows.modify s.id (·.insertAll others)⟩

/-- Relates what is related to the pivot to all that the pivot is related to. -/
def addPivot (r : SymbolRelation) (pivot : Symbol) : SymbolRelation :=
  ⟨r.rows.map fun row =>
    if row.contains pivot then row.insertAll (r.row pivot).members else row⟩

/-- The transitive closure, taking every symbol as the pivot in turn. -/
def transitive (r : SymbolRelation) : SymbolRelation := (Symbol.firstN r.size).foldl addPivot r

/-- The relation with every symbol related to itself, too. -/
def reflexive (r : SymbolRelation) : SymbolRelation :=
  ⟨r.rows.zipIdx.map fun (row, i) => row.insert ⟨i⟩⟩

end SymbolRelation

namespace Grammar

/-- The relation between the grammar's symbols that never holds. -/
def unrelated (g : Grammar) : SymbolRelation := .ofSize g.symbols.size

/-- Relates the left-hand side of every rule to the symbols on its right-hand side. -/
def directDerivation (g : Grammar) : SymbolRelation :=
  g.rules.foldl (fun r rule => r.relate rule.lhs rule.rhs) g.unrelated

/-- Relates a symbol to itself and to all symbols that occur in what it derives. -/
def reachability (g : Grammar) : SymbolRelation := g.directDerivation.transitive.reflexive

/-- The symbols that can be reached from the given one. -/
def reachableFrom (g : Grammar) (s : Symbol) : SymbolSet := g.reachability.row s

end Grammar

end ContextFree
