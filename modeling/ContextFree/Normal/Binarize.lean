import ContextFree.Grammar.Form
import ContextFree.Grammar.Printer
import ContextFree.Normal.Stage
import ContextFree.Provenance.History

/-!
# Grammars in Chomsky normal form

A right-hand side of more than two symbols is split by replacing its first two symbols by a fresh
variable, again and again. A terminal among two or more symbols is replaced by a fresh variable that
derives it, one and the same for all its occurrences. What a rule was split into is a tree of
operands (`Operand`); its rules in pre-order are the record of the split. Fresh variables are named
`X1`, `X2` and so on, leaving out names that are taken.
-/

namespace ContextFree

/-- An operand of a binary rule, with the rules that were made for it. -/
inductive Operand where
  /-- A variable that was there before. -/
  | plain (symbol : Symbol)
  /-- A fresh variable that derives a terminal. -/
  | lifted (wrapper terminal : Symbol)
  /-- A variable that is replaced by two operands. -/
  | pair (lhs : Symbol) (left right : Operand)
deriving DecidableEq, Repr

namespace Operand

/-- The variable that an operand is. -/
def symbol : Operand → Symbol
  | plain symbol => symbol
  | lifted wrapper _ => wrapper
  | pair lhs _ _ => lhs

/-- The rules made for an operand, in pre-order. -/
def rules : Operand → Derivation
  | plain _ => []
  | lifted wrapper terminal => [⟨wrapper, [terminal]⟩]
  | pair lhs left right => ⟨lhs, [left.symbol, right.symbol]⟩ :: (left.rules ++ right.rules)

end Operand

/-- A conversion into normal form that is under way. -/
structure Binarizer where
  /-- The grammar made so far. -/
  result : Grammar
  /-- The splits made so far, and the variables introduced. -/
  split : SplitMap := .empty
  /-- The fresh variable for each terminal that has one. -/
  wrappers : List (Symbol × Symbol) := []
  /-- The number in the name of the last fresh variable. -/
  lastName : Nat := 0

namespace Binarizer

/-- The name of the fresh variable with the given number. -/
def freshName (k : Nat) : String := "X" ++ toString k

/-- The first number after `last` whose name is not taken. There are more candidates than names in
the table, so one of them is free. -/
def nextFree (t : SymbolTable) (last : Nat) : Nat :=
  ((List.range' (last + 1) (t.size + 1)).find? fun k => !t.isTaken (freshName k)).getD (last + 1)

/-- Makes a fresh variable. -/
def fresh (b : Binarizer) : Symbol × Binarizer :=
  let k := nextFree b.result.symbols b.lastName
  (b.result.next,
    { b with
      result := b.result.addVariable (some (freshName k))
      split := b.split.markIntroduced b.result.next
      lastName := k })

/-- A symbol as an operand: a terminal gets the variable that derives it. -/
def operand (b : Binarizer) (s : Symbol) : Operand × Binarizer :=
  if b.result.isTerminal s then
    match b.wrappers.lookup s with
    | some wrapper => (.lifted wrapper s, b)
    | none =>
      let (wrapper, b) := b.fresh
      (.lifted wrapper s, { b with wrappers := (s, wrapper) :: b.wrappers })
  else (.plain s, b)

/-- Joins an operand with the symbols that follow it: the last one becomes the right operand of a
rule for `lhs`, each one before it that of a rule for a fresh variable. -/
def join (b : Binarizer) (lhs : Symbol) (left : Operand) : List Symbol → Operand × Binarizer
  | [] => (left, b)
  | [last] =>
    let (right, b) := b.operand last
    (.pair lhs left right, b)
  | s :: rest =>
    -- The variable for the pair is made before the one that a terminal may need.
    let (middle, b) := b.fresh
    let (right, b) := b.operand s
    b.join lhs (.pair middle left right) rest

/-- The tree of operands for a rule; `none` for a rule with an empty right-hand side. -/
def tree? (b : Binarizer) (rule : Rule) : Option (Operand × Binarizer) :=
  match rule.rhs with
  | [] => none
  | first :: rest =>
    let (left, b) := b.operand first
    some (b.join rule.lhs left rest)

/-- Adds the rules that a rule is split into, and records the split. -/
def record (b : Binarizer) (rule : Rule) (split : Derivation) : Binarizer :=
  { b with result := b.result.addRules split, split := b.split.insert rule split }

/-- Converts one rule. A rule in normal form stays as it is. -/
def convert (b : Binarizer) (rule : Rule) : Binarizer :=
  if b.result.isNormalRule rule then b.record rule [rule]
  else match b.tree? rule with
    | none => b
    | some (tree, b) => b.record rule tree.rules

end Binarizer

namespace Grammar

/-- Why a rule cannot be converted into normal form, if it cannot. -/
def conversionError? (g : Grammar) (rule : Rule) : Option NormalizeError :=
  if rule.isNulling then some (.nullingRule rule.lhs)
  else (g.unitTarget? rule).map (.unitRule rule.lhs)

/-- The conversion after all rules. -/
def binarizer (g : Grammar) : Binarizer :=
  g.rules.foldl Binarizer.convert { result := g.withoutRules }

/-- Converts all rules into normal form. -/
def binarize (g : Grammar) : Stage SplitMap :=
  let b := g.binarizer
  { grammar := b.result
    record := b.split
    log := (g.rules.filter fun rule => !g.isNormalRule rule).map (fun rule =>
        .ruleSplit (g.displayRule rule) ((b.split.get? rule).elim 0 List.length)) ++
      [.converted g.size b.result.size] }

/-- Converts a grammar without nulling and unit rules into Chomsky normal form. -/
def toNormalForm (g : Grammar) : Except NormalizeError (Stage SplitMap) :=
  match g.start with
  | none => .error .missingStart
  | some start =>
    if (g.rulesFor start).isEmpty then .error (.noStartRule start)
    else match g.rules.findSome? g.conversionError? with
      | some e => .error e
      | none => .ok g.binarize

end Grammar

end ContextFree
