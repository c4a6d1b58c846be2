import ContextFree.Symbol

/-!
# Tables of symbol names

A table makes symbols one after the other and keeps the name, if any, that each was given. The
symbols of a table are numbered from zero without gaps (`SymbolTable.mem_symbols`), and a name given
once stays: making more symbols never renames one (`SymbolTable.name?_add_of_lt`).
-/

namespace ContextFree

/-- The symbols made so far and their names. -/
structure SymbolTable where
  /-- The name of each symbol, in the order in which they were made; `none` for an anonymous one. -/
  names : List (Option String) := []
deriving DecidableEq, Repr, Inhabited

namespace SymbolTable

/-- The table without symbols. -/
def empty : SymbolTable := {}

/-- How many symbols were made. -/
def size (t : SymbolTable) : Nat := t.names.length

/-- The symbol that `add` makes next. -/
def next (t : SymbolTable) : Symbol := ⟨t.size⟩

/-- Makes one more symbol, which is `t.next`. -/
def add (t : SymbolTable) (name : Option String) : SymbolTable := ⟨t.names ++ [name]⟩

/-- Makes a symbol for each name of a list; the symbols made come first in the result. -/
def addAll (t : SymbolTable) : List (Option String) → List Symbol × SymbolTable
  | [] => ([], t)
  | name :: names =>
    let (made, t') := (t.add name).addAll names
    (t.next :: made, t')

/-- Whether the symbol was made by this table. -/
def knows (t : SymbolTable) (s : Symbol) : Bool := decide (s.id < t.size)

/-- The name of a symbol, if it has one. -/
def name? (t : SymbolTable) (s : Symbol) : Option String := t.names[s.id]?.join

/-- The name of a symbol, or `g` and its number for a symbol without one. -/
def nameOf (t : SymbolTable) (s : Symbol) : String := (t.name? s).getD ("g" ++ toString s.id)

/-- The first symbol with the given name. -/
def find? (t : SymbolTable) (name : String) : Option Symbol :=
  (t.names.findIdx? (· == some name)).map Symbol.mk

/-- Whether some symbol has the given name. -/
def isTaken (t : SymbolTable) (name : String) : Bool := (t.find? name).isSome

/-- All symbols, in the order in which they were made. -/
def symbols (t : SymbolTable) : List Symbol := Symbol.firstN t.size

/-- The symbols of a table are those with a number below its size. -/
@[simp] theorem mem_symbols {t : SymbolTable} {s : Symbol} : s ∈ t.symbols ↔ s.id < t.size :=
  Symbol.mem_firstN

@[simp] theorem size_add (t : SymbolTable) (name : Option String) :
    (t.add name).size = t.size + 1 := by
  simp [size, add]

/-- The symbol made last has the name it was given. -/
@[simp] theorem name?_add_next (t : SymbolTable) (name : Option String) :
    (t.add name).name? t.next = name := by
  simp [name?, add, next, size]

/-- A symbol keeps its name when another one is made. -/
theorem name?_add_of_lt {t : SymbolTable} {s : Symbol} (name : Option String)
    (h : s.id < t.size) : (t.add name).name? s = t.name? s := by
  simp only [size] at h
  simp [name?, add, List.getElem?_append_left h]

/-- A name is taken exactly when it is the name of some symbol. -/
theorem isTaken_iff {t : SymbolTable} {name : String} :
    t.isTaken name = true ↔ some name ∈ t.names := by
  simp [isTaken, find?]

end SymbolTable

end ContextFree
