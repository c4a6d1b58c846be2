import ContextFree.Grammar.Basic

/-!
# Valid grammars

A grammar is valid when its start symbol is a variable, no terminal stands on a left-hand side, and
every symbol in use was made by the grammar. `Grammar.validate` reports the first fault, looking at
the start symbol first and then at the rules in order; `Grammar.validate_eq_ok_iff` states what it
accepts.
-/

namespace ContextFree

/-- A fault of a grammar. -/
inductive Fault where
  /-- The grammar has no start symbol. -/
  | missingStart
  /-- The start symbol is a terminal. -/
  | terminalStart (start : Symbol)
  /-- A terminal stands on the left-hand side of a rule. -/
  | terminalLhs (lhs : Symbol)
  /-- A symbol in use was never made by the grammar. -/
  | unknownSymbol (symbol : Symbol)
deriving DecidableEq, Repr

/-- A fault in words. -/
def Fault.message : Fault → String
  | .missingStart => "grammar has no start symbol"
  | .terminalStart start => s!"start symbol {start.id} is a terminal"
  | .terminalLhs lhs => s!"terminal {lhs.id} appears on a left-hand side"
  | .unknownSymbol symbol => s!"symbol {symbol.id} does not belong to this grammar"

namespace Grammar

/-- The first fault of a rule: the left-hand side is looked at before the right-hand side. -/
def ruleFault? (g : Grammar) (rule : Rule) : Option Fault :=
  if !g.knows rule.lhs then some (.unknownSymbol rule.lhs)
  else if g.isTerminal rule.lhs then some (.terminalLhs rule.lhs)
  else (rule.rhs.find? fun s => !g.knows s).map .unknownSymbol

/-- The first fault of a grammar: the start symbol is looked at before the rules. -/
def fault? (g : Grammar) : Option Fault :=
  match g.start with
  | none => some .missingStart
  | some start =>
    if !g.knows start then some (.unknownSymbol start)
    else if g.isTerminal start then some (.terminalStart start)
    else g.rules.findSome? g.ruleFault?

/-- Refuses a grammar with a fault, reporting the first one. -/
def validate (g : Grammar) : Except Fault Unit :=
  match g.fault? with
  | none => .ok ()
  | some fault => .error fault

/-- What it is for a grammar to have no fault. -/
structure Valid (g : Grammar) : Prop where
  /-- There is a start symbol, and it is a variable of the grammar. -/
  start : ∃ s, g.start = some s ∧ g.knows s = true ∧ g.isTerminal s = false
  /-- Left-hand sides are variables of the grammar. -/
  lhs : ∀ rule ∈ g.rules, g.knows rule.lhs = true ∧ g.isTerminal rule.lhs = false
  /-- Right-hand sides are made of symbols of the grammar. -/
  rhs : ∀ rule ∈ g.rules, ∀ s ∈ rule.rhs, g.knows s = true

/-- Left-hand sides of a valid grammar are variables. -/
theorem Valid.isTerminal_lhs {g : Grammar} (hg : g.Valid) :
    ∀ rule ∈ g.rules, g.isTerminal rule.lhs = false :=
  fun rule hr => (hg.lhs rule hr).2

theorem ruleFault?_eq_none_iff {g : Grammar} {rule : Rule} :
    g.ruleFault? rule = none ↔
      (g.knows rule.lhs = true ∧ g.isTerminal rule.lhs = false) ∧
        ∀ s ∈ rule.rhs, g.knows s = true := by
  unfold ruleFault?
  cases g.knows rule.lhs <;> cases g.isTerminal rule.lhs <;> simp

/-- Validation accepts exactly the valid grammars. -/
theorem validate_eq_ok_iff {g : Grammar} : g.validate = .ok () ↔ g.Valid := by
  have hnone : g.validate = .ok () ↔ g.fault? = none := by
    unfold validate; cases g.fault? <;> simp
  rw [hnone]
  unfold fault?
  constructor
  · intro h
    cases hs : g.start with
    | none => simp [hs] at h
    | some s =>
      simp only [hs] at h
      cases hk : g.knows s <;> cases ht : g.isTerminal s <;> simp [hk, ht] at h
      exact ⟨⟨s, hs, hk, ht⟩, fun r hr => (ruleFault?_eq_none_iff.1 (h r hr)).1,
        fun r hr => (ruleFault?_eq_none_iff.1 (h r hr)).2⟩
  · rintro ⟨⟨s, hs, hk, ht⟩, hl, hr⟩
    simp only [hs, hk, ht, Bool.not_true, Bool.false_eq_true, if_false, List.findSome?_eq_none_iff]
    exact fun r h => ruleFault?_eq_none_iff.2 ⟨hl r h, hr r h⟩

end Grammar

end ContextFree
