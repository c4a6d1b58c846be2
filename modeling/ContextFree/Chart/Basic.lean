import ContextFree.Event
import ContextFree.Grammar.Form

/-!
# Charts

A chart says for every span of an input which variables derive it, and for what reasons. Cells are
kept by diagonals: one list for each length of a span, with the cells of its spans from left to
right. `Chart.trace` reads a derivation of the whole input off the chart, following the first reason
for each variable.
-/

namespace ContextFree

/-- The input positions from the first to the last one, both included. -/
structure Span where
  /-- The first position. -/
  first : Nat
  /-- The last position. -/
  last : Nat
deriving DecidableEq, Repr

/-- How many positions a span has. -/
def Span.length (span : Span) : Nat := span.last + 1 - span.first

/-- A reason for a variable to be in a cell: a binary rule, and the spans that its two variables
derive. -/
structure Justification where
  /-- The rule. -/
  rule : BinaryRule
  /-- The span of the rule's first variable. -/
  left : Span
  /-- The span of the rule's second variable. -/
  right : Span
deriving DecidableEq, Repr

/-- The variables that derive a span, and the reasons for them. A variable that derives a single
position does so by a rule for the terminal there, which needs no reason. -/
structure Cell where
  /-- The variables. -/
  derivers : SymbolSet := .empty
  /-- The reasons, in the order in which they were found. -/
  reasons : List Justification := []
deriving DecidableEq

namespace Cell

/-- The cell without variables. -/
def empty : Cell := {}

/-- The cell of a single position, with the given variables. -/
def ofDerivers (derivers : List Symbol) : Cell := { derivers := .ofList derivers }

/-- The cell of the variables that have one of the given reasons. -/
def ofReasons (reasons : List Justification) : Cell :=
  { derivers := .ofList (reasons.map (·.rule.lhs)), reasons }

/-- Whether the variable derives the span. -/
def contains (cell : Cell) (s : Symbol) : Bool := cell.derivers.contains s

/-- The variables that derive the span, in ascending order. -/
def symbols (cell : Cell) : List Symbol := cell.derivers.members

/-- How many variables derive the span. -/
def size (cell : Cell) : Nat := cell.derivers.count

/-- The reasons for a variable, in the order in which they were found. -/
def justifications (cell : Cell) (s : Symbol) : List Justification :=
  cell.reasons.filter (·.rule.lhs = s)

end Cell

/-- Cells by diagonals: the cell of the span from `i` to `i + d` is number `i` of diagonal `d`. -/
abbrev Diagonals := List (List Cell)

/-- The cell of a span, which is empty if it was not filled. -/
def Diagonals.cell (diagonals : Diagonals) (span : Span) : Cell :=
  ((diagonals[span.last - span.first]?.getD [])[span.first]?).getD .empty

/-- Why an input was rejected. -/
inductive Rejection where
  /-- No rule derives the symbol at the position; only the cells before it were filled. -/
  | unrecognizedSymbol (position : Nat)
  /-- The start symbol does not derive the whole input. -/
  | notDerived
deriving DecidableEq, Repr

/-- What was found out about an input. -/
structure Chart where
  /-- The input. -/
  input : List Symbol
  /-- The symbol that is to derive the input. -/
  start : Symbol
  /-- The cells that were filled. -/
  diagonals : Diagonals
  /-- Why the input was rejected, if it was. -/
  rejection : Option Rejection

namespace Chart

/-- The number of input positions. -/
def length (chart : Chart) : Nat := chart.input.length

/-- The span of the whole input. -/
def whole (chart : Chart) : Span := ⟨0, chart.length - 1⟩

/-- Whether the start symbol derives the input. -/
def accepted (chart : Chart) : Bool := chart.rejection.isNone

/-- The cell of a span; `none` for a span that is not one of the input. -/
def cell? (chart : Chart) (span : Span) : Option Cell :=
  if span.first ≤ span.last ∧ span.last < chart.length then some (chart.diagonals.cell span)
  else none

/-- The reasons for a variable to derive a span, in the order in which they were found. -/
def justifications (chart : Chart) (span : Span) (s : Symbol) : List Justification :=
  (chart.cell? span).elim [] (·.justifications s)

/-- All spans of the input, by their first position and then by their last. -/
def spans (chart : Chart) : List Span :=
  (List.range chart.length).flatMap fun first =>
    (List.range' first (chart.length - first)).map fun last => ⟨first, last⟩

/-- A derivation of a span from a variable, in pre-order: each variable is replaced by the rule of
its first reason, and one without a reason by the symbol at the first position. A reason divides its
span in two shorter ones, so as many levels as the span has positions suffice. -/
def traceFrom (chart : Chart) : (fuel : Nat) → Symbol → Span → Derivation
  | 0, _, _ => []
  | fuel + 1, s, span =>
    match (chart.justifications span s).head? with
    | some reason =>
      reason.rule.toRule :: (chart.traceFrom fuel reason.rule.left reason.left ++
        chart.traceFrom fuel reason.rule.right reason.right)
    | none => [⟨s, (chart.input[span.first]?).toList⟩]

/-- A derivation of the input, in pre-order; `none` if the input was rejected. -/
def trace (chart : Chart) : Option Derivation :=
  if chart.accepted then some (chart.traceFrom chart.length chart.start chart.whole) else none

end Chart

end ContextFree
