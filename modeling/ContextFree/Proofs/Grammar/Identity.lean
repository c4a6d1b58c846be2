import ContextFree.Proofs.Grammar.Construction

/-!
# Symbols keep their identity

Whatever is done to a grammar, the symbols it has made keep their names and stay terminals or
variables, and a grammar with distinct rules and terminals of its own stays one (`Grammar.Keeps`).
Each operation on grammars does this, and so does everything that is made of operations, such as
adding many things one after the other (`Grammar.Keeps.foldl`).
-/

namespace ContextFree.Grammar

/-- What is kept when the second grammar is made from the first one. -/
structure Keeps (g g' : Grammar) : Prop where
  /-- Symbols keep their names. -/
  symbols : g.symbols.Extends g'.symbols
  /-- Symbols stay terminals or variables. -/
  isTerminal : ∀ s, s.id < g.symbols.size → g'.isTerminal s = g.isTerminal s
  /-- The grammar stays well-formed. -/
  wellFormed : g.WellFormed → g'.WellFormed

variable {g g' g'' : Grammar}

theorem Keeps.refl (g : Grammar) : g.Keeps g := ⟨.refl _, fun _ _ => rfl, id⟩

theorem Keeps.trans (h : g.Keeps g') (h' : g'.Keeps g'') : g.Keeps g'' where
  symbols := h.symbols.trans h'.symbols
  isTerminal s hs := by
    have hs' : s.id < g'.symbols.size := Nat.lt_of_lt_of_le hs h.symbols.size_le
    rw [h'.isTerminal s hs', h.isTerminal s hs]
  wellFormed hg := h'.wellFormed (h.wellFormed hg)

/-- More symbols and other rules over the same terminals keep everything, if the rules are distinct
when they were before. -/
theorem Keeps.of_terminals (hs : g.symbols.Extends g'.symbols) (ht : g'.terminals = g.terminals)
    (hr : g.rules.Nodup → g'.rules.Nodup) : g.Keeps g' := by
  have hsame : g'.isTerminal = g.isTerminal := by
    funext s
    rw [Grammar.isTerminal, Grammar.isTerminal, ht]
  refine ⟨hs, fun s _ => by rw [hsame], fun hg => ⟨hr hg.nodup, fun s hterm => ?_⟩⟩
  rw [hsame] at hterm
  exact Nat.lt_of_lt_of_le (hg.terminals s hterm) hs.size_le

/-- What one step keeps, many steps keep. The grammar may be a part of what the steps work on. -/
theorem Keeps.foldl {α β : Type} (grammar : β → Grammar) {step : β → α → β}
    (h : ∀ b a, (grammar b).Keeps (grammar (step b a))) (b : β) (l : List α) :
    (grammar b).Keeps (grammar (l.foldl step b)) := by
  induction l generalizing b with
  | nil => exact .refl _
  | cons a l ih => exact (h b a).trans (ih (step b a))

/-! ## Operations -/

theorem keeps_withoutRules (g : Grammar) : g.Keeps g.withoutRules :=
  .of_terminals (.refl _) rfl fun _ => List.nodup_nil

theorem keeps_addVariable (g : Grammar) (name : Option String) : g.Keeps (g.addVariable name) :=
  .of_terminals (g.symbols.extends_add name) rfl id

theorem keeps_addVariables (g : Grammar) (names : List (Option String)) :
    g.Keeps (g.addVariables names).2 :=
  .of_terminals (g.symbols.extends_addAll names) rfl id

/-- A new terminal is a symbol of its own, so the others stay what they are. -/
theorem keeps_addTerminal (g : Grammar) (name : String) : g.Keeps (g.addTerminal name) where
  symbols := g.symbols.extends_add (some name)
  isTerminal s hs := by
    have hne : s ≠ g.next := by
      rintro rfl
      exact absurd hs (Nat.lt_irrefl _)
    rw [Bool.eq_iff_iff, isTerminal_iff, isTerminal_iff]
    exact SymbolSet.mem_insert.trans (or_iff_right hne)
  wellFormed hg := hg.addTerminal name

theorem keeps_setStart (g : Grammar) (start : Symbol) : g.Keeps (g.setStart start) :=
  .of_terminals (.refl _) rfl id

theorem keeps_addRule (g : Grammar) (rule : Rule) : g.Keeps (g.addRule rule) := by
  refine .of_terminals ?_ (terminals_addRule g rule) (nodup_addRule rule)
  rw [symbols_addRule]
  exact .refl _

theorem keeps_addRules (g : Grammar) (rules : List Rule) : g.Keeps (g.addRules rules) :=
  Keeps.foldl id keeps_addRule g rules

theorem keeps_retainIdx (g : Grammar) (keep : Nat → Rule → Bool) : g.Keeps (g.retainIdx keep) :=
  .of_terminals (.refl _) rfl fun h => h.sublist (sublist_retainIdx keep)

theorem keeps_retain (g : Grammar) (keep : Rule → Bool) : g.Keeps (g.retain keep) :=
  .of_terminals (.refl _) rfl fun h => h.sublist List.filter_sublist

end ContextFree.Grammar
