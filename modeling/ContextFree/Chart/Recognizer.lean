import ContextFree.Chart.Basic

/-!
# Recognition

A recognizer holds the rules of a grammar in Chomsky normal form and fills a chart for an input,
from the shortest spans to the longest. The cell of a single position has the variables with a rule
for the terminal there. A longer span is divided in two in every possible way, from left to right,
and a binary rule whose variables derive the two parts is a reason for its left-hand side.
-/

namespace ContextFree

/-- Why a recognizer cannot be made or used. -/
inductive RecognizerError where
  /-- The empty input has no chart. -/
  | emptyInput
  /-- The rule is not in Chomsky normal form. -/
  | notNormal (rule : Rule)
  /-- The grammar has no start symbol. -/
  | missingStart
deriving DecidableEq, Repr

/-- An error of recognition in words. -/
def RecognizerError.message : RecognizerError → String
  | .emptyInput => "the empty input is not supported"
  | .notNormal rule => "rule " ++ rule.describe ++ " is not in Chomsky Normal Form"
  | .missingStart => "grammar has no start symbol"

/-- The rules of a grammar in Chomsky normal form. -/
structure Recognizer where
  /-- The symbol that is to derive the input. -/
  start : Symbol
  /-- The rules, in the order of the grammar. -/
  rules : List NormalRule
deriving DecidableEq

namespace Recognizer

/-- The forms of rules that are all in normal form, or the first rule that is not. -/
def normalRules (g : Grammar) : List Rule → Except RecognizerError (List NormalRule)
  | [] => .ok []
  | rule :: rest =>
    match g.normalRule? rule with
    | none => .error (.notNormal rule)
    | some form => (normalRules g rest).map (form :: ·)

/-- The recognizer for a grammar in Chomsky normal form. -/
def ofGrammar (g : Grammar) : Except RecognizerError Recognizer :=
  match g.start with
  | none => .error .missingStart
  | some start => (normalRules g g.rules).map fun rules => ⟨start, rules⟩

/-- The variables with a rule for the terminal, in the order of the rules. -/
def derivers (r : Recognizer) (terminal : Symbol) : List Symbol :=
  r.rules.filterMap fun
    | .lexical lhs a => if a = terminal then some lhs else none
    | .binary _ => none

/-- The binary rules, in order. -/
def binaryRules (r : Recognizer) : List BinaryRule :=
  r.rules.filterMap fun
    | .lexical _ _ => none
    | .binary rule => some rule

/-- The cells of the single positions of an input. -/
def lexicalCells (r : Recognizer) (input : List Symbol) : List Cell :=
  input.map fun terminal => .ofDerivers (r.derivers terminal)

/-- The reasons that come from dividing a span into the given two. -/
def reasonsAt (rules : List BinaryRule) (diagonals : Diagonals) (left right : Span) :
    List Justification :=
  let leftCell := diagonals.cell left
  let rightCell := diagonals.cell right
  (rules.filter fun rule => leftCell.contains rule.left && rightCell.contains rule.right).map
    fun rule => ⟨rule, left, right⟩

/-- The reasons that come from dividing a span of `size + 1` positions, from left to right. -/
def reasons (rules : List BinaryRule) (diagonals : Diagonals) (size first : Nat) :
    List Justification :=
  (List.range size).flatMap fun k =>
    reasonsAt rules diagonals ⟨first, first + k⟩ ⟨first + k + 1, first + size⟩

/-- The first diagonals of the chart, one more than `size` says. -/
def fill (rules : List BinaryRule) (lexical : List Cell) : (size : Nat) → Diagonals
  | 0 => [lexical]
  | size + 1 =>
    let diagonals := fill rules lexical size
    -- Both parts of a span are shorter, so their cells are among those filled before.
    diagonals ++ [(List.range (lexical.length - (size + 1))).map fun first =>
      .ofReasons (reasons rules diagonals (size + 1) first)]

/-- The first position whose symbol no rule derives. -/
def unrecognized? (r : Recognizer) (input : List Symbol) : Option Nat :=
  input.findIdx? fun terminal => (r.derivers terminal).isEmpty

/-- The chart of an input that has a rule for each of its symbols. -/
def fullChart (r : Recognizer) (input : List Symbol) : Chart :=
  let diagonals := fill r.binaryRules (r.lexicalCells input) (input.length - 1)
  let accepted := (diagonals.cell ⟨0, input.length - 1⟩).contains r.start
  { input, start := r.start, diagonals
    rejection := if accepted then none else some .notDerived }

/-- The chart of an input that has no rule for the symbol at the given position. -/
def chartUpTo (r : Recognizer) (input : List Symbol) (position : Nat) : Chart :=
  { input, start := r.start
    diagonals := [r.lexicalCells (input.take position)]
    rejection := some (.unrecognizedSymbol position) }

/-- The chart of an input. -/
def chart (r : Recognizer) (input : List Symbol) : Chart :=
  match r.unrecognized? input with
  | some position => r.chartUpTo input position
  | none => r.fullChart input

end Recognizer

/-- What is reported while a chart is filled: the number of variables in the cell of each span of
two or more positions, from the shortest spans to the longest, and the decision. -/
def Chart.log (chart : Chart) : List Event :=
  match chart.rejection with
  | some (.unrecognizedSymbol position) => [.unrecognized position]
  | _ =>
    (chart.diagonals.zipIdx.tail.flatMap fun (diagonal, size) =>
      diagonal.zipIdx.map fun (cell, first) => .cellFilled first (first + size) cell.size) ++
      [.decided chart.accepted chart.length]

/-- Fills the chart of an input. The empty input has none. -/
def Recognizer.recognize (r : Recognizer) (input : List Symbol) : Run RecognizerError Chart :=
  if input.isEmpty then .fail .emptyInput
  else
    let chart := r.chart input
    ⟨chart.log, .ok chart⟩

end ContextFree
