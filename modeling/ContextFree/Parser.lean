import ContextFree.Chart.Recognizer
import ContextFree.Grammar.Tokens
import ContextFree.Normal.Normalized
import ContextFree.Provenance.TraceBack

/-!
# Parsers

A parser recognizes and derives inputs with any context-free grammar. The grammar is normalized
once, when the parser is made; a derivation found with the normalized grammar is traced back to the
grammar as it was given. The empty input is decided apart, by an oracle that is asked about the
grammar.
-/

namespace ContextFree

/-- Decides whether a grammar derives the empty word. -/
abbrev EmptyOracle := Grammar → Bool

/-- The oracle that tells the truth: the start symbol derives the empty word. -/
def EmptyOracle.nullableStart : EmptyOracle := Grammar.startIsNullable

/-- Why a parser cannot be made or an input cannot be parsed. -/
inductive ParseError where
  /-- The grammar cannot be normalized. -/
  | normalize (error : NormalizeError)
  /-- The recognizer cannot be made or used. -/
  | recognize (error : RecognizerError)
  /-- The derivation cannot be traced back. -/
  | trace (error : TraceError)
  /-- The empty input has no derivation to trace. -/
  | emptyInput
deriving DecidableEq, Repr

namespace ParseError

/-- The message of the error behind an error, if there is one. -/
def source? : ParseError → Option String
  | normalize error => some error.message
  | recognize error => some error.message
  | trace error => some error.message
  | emptyInput => none

/-- An error of parsing in words. -/
def message : ParseError → String
  | normalize error => "normalization failed: " ++ error.message
  | recognize error => "recognition failed: " ++ error.message
  | trace error => "tracing failed: " ++ error.message
  | emptyInput => "the empty input has no derivation to trace"

end ParseError

/-- A grammar prepared for parsing. -/
structure Parser where
  /-- The grammar as it was given. -/
  grammar : Grammar
  /-- The grammar in normal form. -/
  normalized : Normalized
  /-- The recognizer for the grammar in normal form. -/
  recognizer : Recognizer
  /-- What to do with a rule of unknown provenance. -/
  policy : TracePolicy := .strict
  /-- Decides about the empty input. -/
  oracle : EmptyOracle := .nullableStart

namespace Parser

/-- Prepares a grammar for parsing. -/
def ofGrammar (g : Grammar) (policy : TracePolicy) : Run ParseError Parser := do
  let normalized ← g.normalize.mapError .normalize
  let recognizer ←
    Run.ofExcept ((Recognizer.ofGrammar normalized.grammar).mapError .recognize)
  Run.emit [.parserReady g.size normalized.grammar.size]
  return { grammar := g, normalized, recognizer, policy }

/-- The parser with another oracle for the empty input. -/
def withOracle (p : Parser) (oracle : EmptyOracle) : Parser := { p with oracle }

/-- The chart of an input that is not empty. -/
def chart (p : Parser) (input : List Symbol) : Run ParseError Chart :=
  (p.recognizer.recognize input).mapError .recognize

/-- Whether the grammar derives the input. -/
def recognize (p : Parser) (input : List Symbol) : Run ParseError Bool :=
  if input.isEmpty then pure (p.oracle p.grammar)
  else do
    let chart ← p.chart input
    return chart.accepted

/-- A derivation of the input with the rules of the grammar, in pre-order; `none` if the grammar
does not derive it. -/
def parse (p : Parser) (input : List Symbol) : Run ParseError (Option Derivation) :=
  if input.isEmpty then Run.fail .emptyInput
  else do
    let chart ← p.chart input
    match chart.trace with
    | none => return none
    | some trace =>
      let tracer : Tracer := ⟨p.grammar, p.normalized.history, p.policy⟩
      let derivation ← (tracer.traceBack trace).mapError .trace
      return some derivation

/-- Whether the grammar derives the text, one terminal for each character. -/
def recognizeText (p : Parser) (text : String) : Run ParseError Bool :=
  match p.grammar.tokens? text with
  | none => pure false
  | some input => p.recognize input

/-- A derivation of the text, one terminal for each character. -/
def parseText (p : Parser) (text : String) : Run ParseError (Option Derivation) :=
  match p.grammar.tokens? text with
  | none => pure none
  | some input => p.parse input

end Parser

end ContextFree
