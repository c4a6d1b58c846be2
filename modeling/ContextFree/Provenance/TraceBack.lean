import ContextFree.Event
import ContextFree.Grammar.Printer
import ContextFree.Provenance.Group
import ContextFree.Provenance.Restore

/-!
# Tracing derivations back

A derivation over a normalized grammar is turned into one over the grammar as it was written by
undoing the stages of normalization in reverse: first the split into normal form, then the
elimination of unit rules, then that of nulling rules. A rule that cannot be accounted for is
refused or kept with a warning, as the policy says.
-/

namespace ContextFree

/-- What to do with a rule of unknown provenance. -/
inductive TracePolicy where
  /-- Fail. -/
  | strict
  /-- Keep the rule and warn. -/
  | bestEffort
deriving DecidableEq, Repr

/-- Why a derivation cannot be traced back. -/
inductive TraceError where
  /-- The rule cannot be accounted for by the grammar before normalization. -/
  | unresolved (rule : Rule)
  /-- The rules are no complete derivation; the one at the given place does not fit. -/
  | malformed (position : Nat)
deriving DecidableEq, Repr

/-- An error of tracing back in words. -/
def TraceError.message : TraceError → String
  | .unresolved rule => "cannot trace rule " ++ rule.describe ++ " back to the original grammar"
  | .malformed position => s!"malformed derivation at rule {position}"

/-- What tracing back rests on. -/
structure Tracer where
  /-- The grammar before normalization. -/
  grammar : Grammar
  /-- What normalization did to it. -/
  history : History
  /-- What to do with a rule of unknown provenance. -/
  policy : TracePolicy := .strict

namespace Tracer

/-- Refuses a rule of unknown provenance, or keeps it with a warning. -/
def unresolved (t : Tracer) (rule : Rule) : Run TraceError Unit :=
  match t.policy with
  | .strict => .fail (.unresolved rule)
  | .bestEffort => .emit [.unresolvedKept (t.grammar.displayRule rule)]

/-- Deals with rules of unknown provenance one after the other. -/
def unresolvedAll (t : Tracer) : List Rule → Run TraceError Unit
  | [] => pure ()
  | rule :: rest => do
    t.unresolved rule
    t.unresolvedAll rest

/-- The tree of a derivation, which must be complete. -/
def forest (t : Tracer) (derivation : Derivation) : Run TraceError Forest :=
  .ofExcept ((Forest.ofDerivation t.grammar.isTerminal derivation).mapError .malformed)

/-- Undoes the split into normal form. -/
def undoSplit (t : Tracer) (split : SplitMap) (derivation : Derivation) :
    Run TraceError Derivation := do
  let forest ← t.forest derivation
  let groups := forest.groups split false
  t.unresolvedAll (groups.filterMap Group.kept?)
  return groups.map Group.rule

/-- Undoes the elimination of nulling rules. -/
def undoNulling (t : Tracer) (nulling : NullingMap) (derivation : Derivation) :
    Run TraceError Derivation := do
  let forest ← t.forest derivation
  let parts ← .ofExcept
    (((forest.restore t.grammar.isTerminal nulling).mapM id).mapError .malformed)
  return parts.flatten

/-- Undoes all stages that left a record. -/
def undo (t : Tracer) (trace : Derivation) : Run TraceError Derivation := do
  let derivation ← match t.history.split with
    | some split => t.undoSplit split trace
    | none => pure trace
  let derivation := match t.history.units with
    | some units => expandUnits units derivation
    | none => derivation
  match t.history.nulling with
    | some nulling => t.undoNulling nulling derivation
    | none => pure derivation

/-- Traces a derivation over the normalized grammar back to one over the grammar before
normalization. -/
def traceBack (t : Tracer) (trace : Derivation) : Run TraceError Derivation := do
  let derivation ← t.undo trace
  t.unresolvedAll (derivation.filter fun rule => !t.grammar.contains rule)
  Run.emit [.tracedBack trace.length derivation.length]
  return derivation

end Tracer

end ContextFree
