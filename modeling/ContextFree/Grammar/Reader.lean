import ContextFree.Event
import ContextFree.Grammar.Basic
import ContextFree.Text.Blank
import ContextFree.Text.Lines

/-!
# Reading grammars

The compact notation of grammars: each line gives the alternatives for one variable, as in
`S -> aSb | ε`. Every symbol is one character; uppercase letters are variables, all other characters
that are not blank are terminals. `ε`, `λ` or nothing at all stands for the empty right-hand side.
Blank lines and lines that begin with `#` are skipped, and the variable of the first line is the
start symbol. `Production.parse` reads a line, `Grammar.ofProductions` builds the grammar, and
`Grammar.read` reports the first line that is malformed.
-/

namespace ContextFree

/-- Why a text is not a grammar. -/
inductive LoadError.Reason where
  /-- The line has no arrow. -/
  | missingArrow
  /-- Nothing stands before the arrow. -/
  | missingLhs
  /-- More than one character stands before the arrow. -/
  | severalSymbols
  /-- The character before the arrow is no variable. -/
  | notVariable
  /-- The text has no line with rules. -/
  | noRules
deriving DecidableEq, Repr

/-- A reason in words. -/
def LoadError.Reason.message : LoadError.Reason → String
  | .missingArrow => "expected `->`"
  | .missingLhs => "missing left-hand side"
  | .severalSymbols => "left-hand side must be a single symbol"
  | .notVariable => "left-hand side must be a variable (an uppercase letter)"
  | .noRules => "grammar has no rules"

/-- Where a text stops being a grammar, and why. -/
structure LoadError where
  /-- Why the text is not a grammar. -/
  reason : LoadError.Reason
  /-- The line at fault, counted from one. -/
  line : UInt32
  /-- The column at fault, counted in characters from one. -/
  column : UInt32
deriving DecidableEq, Repr

/-- The position of a line or character that has the given number of others before it. Positions
are counted from one in 32 bits, and begin anew once these are used up. -/
def LoadError.position (before : Nat) : UInt32 := UInt32.ofNat before + 1

/-- An error of reading in words. -/
def LoadError.message (e : LoadError) : String :=
  s!"Parse error at line {e.line} column {e.column}: reason: " ++ e.reason.message

/-- What a line says: the alternatives for one variable, character by character. -/
structure Production where
  /-- The variable. -/
  lhs : Char
  /-- The right-hand sides, in order. -/
  alternatives : List (List Char)
deriving DecidableEq, Repr

namespace Production

open LoadError (position)

/-- Whether the line is skipped: it is blank, or its first character that is not blank is `#`. -/
def isSkipped (line : List Char) : Bool :=
  match Text.skipBlank line with
  | [] => true
  | c :: _ => c == '#'

/-- The text before the first arrow and the text after it. -/
def splitArrow : List Char → Option (List Char × List Char)
  | [] => none
  | '-' :: '>' :: rest => some ([], rest)
  | '→' :: rest => some ([], rest)
  | c :: rest => (splitArrow rest).map fun (before, after) => (c :: before, after)

/-- The parts of a text between its bars. -/
def splitBars : List Char → List (List Char)
  | [] => [[]]
  | '|' :: rest => [] :: splitBars rest
  | c :: rest => Text.prepend c (splitBars rest)

/-- Whether the character stands for a symbol on a right-hand side. -/
def isSymbol (c : Char) : Bool := !Text.isBlank c && c != 'ε' && c != 'λ'

/-- The variable before the arrow, or what is wrong there and in which column. -/
def parseLhs (before : List Char) : Except (LoadError.Reason × UInt32) Char :=
  match before.zipIdx.filter fun (c, _) => !Text.isBlank c with
  | [] => .error (.missingLhs, position 0)
  | [(c, i)] => if c.isUpper then .ok c else .error (.notVariable, position i)
  | _ :: (_, i) :: _ => .error (.severalSymbols, position i)

/-- What a line says, or what is wrong with it and in which column. -/
def parse (line : List Char) : Except (LoadError.Reason × UInt32) Production :=
  match splitArrow line with
  | none => .error (.missingArrow, position line.length)
  | some (before, after) =>
    (parseLhs before).map fun lhs => ⟨lhs, (splitBars after).map (·.filter isSymbol)⟩

/-- What the lines say that are not skipped, behind the given number of other lines. -/
def parseLines (index : Nat) : List (List Char) → Except LoadError (List Production)
  | [] => .ok []
  | line :: rest =>
    if isSkipped line then parseLines (index + 1) rest
    else match parse line with
      | .error (reason, column) => .error ⟨reason, position index, column⟩
      | .ok production => (parseLines (index + 1) rest).map (production :: ·)

end Production

namespace Grammar

/-- The symbol named by a character, which is made if there is none: a variable for an uppercase
letter and a terminal otherwise. -/
def intern (g : Grammar) (c : Char) : Symbol × Grammar :=
  match g.symbols.find? c.toString with
  | some s => (s, g)
  | none =>
    (g.next, if c.isUpper then g.addVariable (some c.toString) else g.addTerminal c.toString)

/-- The symbols named by the characters of a list. -/
def internAll (g : Grammar) : List Char → List Symbol × Grammar
  | [] => ([], g)
  | c :: rest =>
    let (s, g) := g.intern c
    let (symbols, g) := g.internAll rest
    (s :: symbols, g)

/-- Adds a rule for each alternative, in order. -/
def addAlternatives (g : Grammar) (lhs : Symbol) : List (List Char) → Grammar
  | [] => g
  | alternative :: rest =>
    let (rhs, g) := g.internAll alternative
    (g.addRule ⟨lhs, rhs⟩).addAlternatives lhs rest

/-- Adds the rules of a line; its variable becomes the start symbol if there is none yet. -/
def addProduction (g : Grammar) (production : Production) : Grammar :=
  let (lhs, g) := g.intern production.lhs
  ({ g with start := some (g.start.getD lhs) } : Grammar).addAlternatives lhs
    production.alternatives

/-- The grammar with the rules of the given lines. -/
def ofProductions (productions : List Production) : Grammar := productions.foldl addProduction empty

/-- Reads a grammar in the compact notation. -/
def read (text : String) : Except LoadError Grammar :=
  match Production.parseLines 0 (Text.lines text.toList) with
  | .error e => .error e
  | .ok [] => .error ⟨.noRules, 1, 1⟩
  | .ok (first :: rest) => .ok (ofProductions (first :: rest))

/-- Reads a grammar and reports its size. -/
def load (text : String) : Run LoadError Grammar := do
  let g ← Run.ofExcept (read text)
  Run.emit [.loaded g.size g.symbols.size]
  return g

end Grammar

end ContextFree
