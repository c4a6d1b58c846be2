import ContextFree.Event
import ContextFree.Grammar.Validity

/-!
# Stages of normalization

A stage turns a grammar into another one, keeps a record of the rules it made, and reports what it
did (`Stage`). A stage that makes rules adds each of them to a draft together with a note of how it
came about; the first note for a rule counts, and rules that were there before get none (`Draft`).
-/

namespace ContextFree

/-- Why a grammar cannot be normalized. -/
inductive NormalizeError where
  /-- The grammar has no start symbol. -/
  | missingStart
  /-- The grammar has another fault. -/
  | invalidGrammar (fault : Fault)
  /-- No rule has the start symbol on its left-hand side. -/
  | noStartRule (start : Symbol)
  /-- A rule with an empty right-hand side cannot be brought into normal form. -/
  | nullingRule (lhs : Symbol)
  /-- A unit rule cannot be brought into normal form. -/
  | unitRule (lhs target : Symbol)
deriving DecidableEq, Repr

namespace NormalizeError

/-- A fault as a reason not to normalize. -/
def ofFault : Fault → NormalizeError
  | .missingStart => .missingStart
  | fault => .invalidGrammar fault

/-- An error of normalization in words. -/
def message : NormalizeError → String
  | .missingStart => "grammar has no start symbol"
  | .invalidGrammar fault => "invalid grammar: " ++ fault.message
  | .noStartRule start => s!"no rule has the start symbol {start.id} on its left-hand side"
  | .nullingRule lhs => s!"nulling rule for symbol {lhs.id} is not allowed"
  | .unitRule lhs target =>
    s!"unit rule from symbol {lhs.id} to symbol {target.id} is not allowed"

/-- The fault behind an error, if that is what it is about. -/
def fault? : NormalizeError → Option Fault
  | .invalidGrammar fault => some fault
  | _ => none

end NormalizeError

/-- The start symbol of a valid grammar. -/
def Grammar.validStart (g : Grammar) : Except NormalizeError Symbol :=
  match g.validate.mapError .ofFault, g.start with
  | .error e, _ => .error e
  | .ok (), none => .error .missingStart
  | .ok (), some start => .ok start

/-- What a stage of normalization makes of a grammar. -/
structure Stage (α : Type) where
  /-- The grammar after the stage. -/
  grammar : Grammar
  /-- What the stage keeps about the rules it made. -/
  record : α
  /-- What the stage reports. -/
  log : List Event

/-- Goes through a stage and reports what it does. -/
def Stage.run {ε α : Type} (stage : Stage α) : Run ε (Stage α) := ⟨stage.log, .ok stage⟩

/-- A grammar to which rules are added, and the rules added with a note on each, in order. -/
structure Draft (α : Type) where
  /-- The grammar so far. -/
  grammar : Grammar
  /-- The rules added and their notes. -/
  notes : List (Rule × α) := []

namespace Draft

variable {α : Type}

/-- Adds a rule and its note, unless the rule is there already. -/
def add (d : Draft α) (rule : Rule) (note : Unit → α) : Draft α :=
  match d.grammar.addRule? rule with
  | none => d
  | some grammar => ⟨grammar, d.notes ++ [(rule, note ())]⟩

end Draft

end ContextFree
