import ContextFree.Grammar.Basic

/-!
# Text as terminals

A text stands for the terminals named by its characters, one after the other. A character that
names no terminal stands for none.
-/

namespace ContextFree.Grammar

/-- The first terminal whose name is the single character. -/
def terminalFor? (g : Grammar) (c : Char) : Option Symbol :=
  g.terminals.members.find? fun s => g.symbols.name? s == some c.toString

/-- The terminal for each character of a text, where there is one. -/
def tokenize (g : Grammar) (text : String) : List (Option Symbol) :=
  text.toList.map g.terminalFor?

/-- The terminals that a text stands for; `none` if one of its characters names no terminal. -/
def tokens? (g : Grammar) (text : String) : Option (List Symbol) := text.toList.mapM g.terminalFor?

end ContextFree.Grammar
