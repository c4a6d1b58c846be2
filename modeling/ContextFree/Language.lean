import ContextFree.Grammar.Basic

/-!
# The language of a grammar

What a grammar means, apart from any algorithm. A list of symbols spells a word when each terminal
stands for itself and each variable is replaced, by some rule, by symbols that spell its part of the
word (`Grammar.Spells`). A symbol yields a word when the right-hand side of one of its rules spells
it, and the language is what the start symbol yields. Spelling goes place by place
(`Grammar.spells_append_iff`), and a word that is spelled is made of terminals
(`Grammar.Spells.terminals`).
-/

namespace ContextFree.Grammar

/-- The symbols spell the word: terminals stand for themselves, and variables for what the
right-hand side of one of their rules spells. -/
inductive Spells (g : Grammar) : List Symbol → List Symbol → Prop where
  /-- No symbols spell the empty word. -/
  | nil : Spells g [] []
  /-- A terminal stands for itself. -/
  | ofTerminal {a : Symbol} {rest word : List Symbol} (isTerminal : g.isTerminal a = true)
      (tail : Spells g rest word) : Spells g (a :: rest) (a :: word)
  /-- A variable is replaced by the right-hand side of a rule. -/
  | ofRule {rule : Rule} {rest part word : List Symbol} (mem : rule ∈ g.rules)
      (isVariable : g.isTerminal rule.lhs = false) (head : Spells g rule.rhs part)
      (tail : Spells g rest word) : Spells g (rule.lhs :: rest) (part ++ word)

/-- The symbol yields the word by one of its rules. -/
def Yields (g : Grammar) (s : Symbol) (word : List Symbol) : Prop :=
  ∃ rule ∈ g.rules, rule.lhs = s ∧ g.Spells rule.rhs word

/-- The word is in the language: the start symbol yields it. -/
def Language (g : Grammar) (word : List Symbol) : Prop :=
  ∃ start, g.start = some start ∧ g.Yields start word

variable {g : Grammar}

@[simp] theorem spells_nil_iff {word : List Symbol} : g.Spells [] word ↔ word = [] := by
  constructor
  · intro h
    cases h
    rfl
  · rintro rfl
    exact .nil

/-- Two lists of symbols together spell what they spell one after the other. -/
theorem Spells.append {first second u v : List Symbol} (h : g.Spells first u)
    (k : g.Spells second v) : g.Spells (first ++ second) (u ++ v) := by
  induction h with
  | nil => exact k
  | ofTerminal ha _ ih => exact .ofTerminal ha ih
  | ofRule hm hv head _ _ ih =>
    rw [List.cons_append, List.append_assoc]
    exact .ofRule hm hv head ih

/-- A word spelled by two lists of symbols together divides into the parts that each spells. -/
theorem spells_append_iff {first second word : List Symbol} :
    g.Spells (first ++ second) word ↔
      ∃ u v, word = u ++ v ∧ g.Spells first u ∧ g.Spells second v := by
  constructor
  · intro h
    induction first generalizing word with
    | nil => exact ⟨[], word, rfl, .nil, h⟩
    | cons s first ih =>
      cases h with
      | ofTerminal ha tail =>
        obtain ⟨u, v, rfl, hu, hv⟩ := ih tail
        exact ⟨s :: u, v, rfl, .ofTerminal ha hu, hv⟩
      | ofRule hm hvar head tail =>
        obtain ⟨u, v, rfl, hu, hv⟩ := ih tail
        exact ⟨_ ++ u, v, (List.append_assoc ..).symm, .ofRule hm hvar head hu, hv⟩
  · rintro ⟨u, v, rfl, hu, hv⟩
    exact hu.append hv

/-- A word that is spelled is made of terminals. -/
theorem Spells.terminals {symbols word : List Symbol} (h : g.Spells symbols word) :
    ∀ a ∈ word, g.isTerminal a = true := by
  induction h with
  | nil => simp
  | ofTerminal ha _ ih => simpa using ⟨ha, ih⟩
  | ofRule _ _ _ _ ihHead ihTail =>
    intro a ha
    exact (List.mem_append.1 ha).elim (ihHead a) (ihTail a)

end ContextFree.Grammar
