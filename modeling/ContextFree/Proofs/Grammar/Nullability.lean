import ContextFree.Parser
import ContextFree.Proofs.Derivation.Forest
import ContextFree.Proofs.Grammar.Worklist
import ContextFree.Proofs.Normal.Witness
import Mathlib.Order.Bounds.Basic

/-!
# Nullable and productive symbols as least sets

A set of symbols is closed when it holds the left-hand side of every rule whose right-hand side it
holds (`Grammar.Closed`). Nothing is asked of the grammar: a rule may be for a terminal, and its
symbols may be unknown. The nullable symbols are the least closed set (`Grammar.isLeast_nullable`),
which is the set of the symbols that have a tree without a leaf (`Grammar.mem_nullable_iff_tree`),
and the productive symbols are the least closed set with all terminals
(`Grammar.isLeast_productive`). The search for witnesses finds the least closed set as well
(`Witnesses.isLeast_symbols`), in another way and for another purpose, so the symbols that are
deleted from right-hand sides are those that the oracle for the empty word asks about
(`Witnesses.mem_symbols_ofGrammar_iff`).
-/

namespace ContextFree

namespace Grammar

variable {g : Grammar} {s : Symbol}

/-- The set holds the left-hand side of every rule whose right-hand side it holds. -/
def Closed (g : Grammar) (set : Set Symbol) : Prop :=
  ∀ rule ∈ g.rules, (∀ s ∈ rule.rhs, s ∈ set) → rule.lhs ∈ set

/-! ## Least closed sets -/

/-- A closure that starts from the nulling rules is the least closed set with the given members. -/
theorem isLeast_close_markNulling (g : Grammar) (set : SymbolSet) :
    IsLeast {N : Set Symbol | (∀ s ∈ set, s ∈ N) ∧ g.Closed N}
      {s | s ∈ g.close .all (g.markNulling set)} := by
  refine ⟨⟨fun s hs => ?_, fun rule hr hrhs => lhs_mem_close_markNulling hr hrhs⟩, ?_⟩
  · exact mem_close_of_mem (mem_markNulling.2 (.inl hs))
  · rintro N ⟨hset, hclosed⟩ s hs
    refine close_least (P := (· ∈ N)) (fun t ht => ?_) (fun rule hr t ht hspread => ?_) s hs
    · rcases mem_markNulling.1 ht with ht | ⟨rule, hr, hnil, rfl⟩
      · exact hset t ht
      · exact hclosed rule hr (by simp [hnil])
    · have ⟨_, hall⟩ := Rule.spreads_all_iff.1 hspread
      exact hclosed rule hr fun x hx => ht x (hall x hx)

/-- The nullable symbols are the least closed set. -/
theorem isLeast_nullable (g : Grammar) :
    IsLeast {N : Set Symbol | g.Closed N} {s | s ∈ g.nullable} := by
  obtain ⟨⟨-, hclosed⟩, hleast⟩ := isLeast_close_markNulling g (.ofWidth g.symbols.size)
  exact ⟨hclosed, fun N hN => hleast ⟨fun s hs => absurd hs SymbolSet.not_mem_ofWidth, hN⟩⟩

/-- The productive symbols are the least closed set with all terminals. -/
theorem isLeast_productive (g : Grammar) :
    IsLeast {N : Set Symbol | (∀ s, g.isTerminal s = true → s ∈ N) ∧ g.Closed N}
      {s | s ∈ g.productive} := by
  have hterminal : ∀ s, g.isTerminal s = true ↔ s ∈ g.terminals := fun s => SymbolSet.contains_iff
  simp only [hterminal]
  exact isLeast_close_markNulling g g.terminals

/-- A symbol is productive exactly if it is a terminal or there is a rule for it with productive
symbols only. -/
theorem mem_productive_iff_rule :
    s ∈ g.productive ↔ g.isTerminal s = true ∨
      ∃ rule ∈ g.rules, rule.lhs = s ∧ ∀ t ∈ rule.rhs, t ∈ g.productive := by
  obtain ⟨⟨hterminals, hclosed⟩, hleast⟩ := isLeast_productive g
  -- Whatever has a reason to be productive is, so the symbols with a reason are closed themselves.
  let reason : Set Symbol := {s | g.isTerminal s = true ∨
    ∃ rule ∈ g.rules, rule.lhs = s ∧ ∀ t ∈ rule.rhs, t ∈ g.productive}
  have hsub : ∀ s ∈ reason, s ∈ g.productive := by
    rintro s (hs | ⟨rule, hr, rfl, hrhs⟩)
    · exact hterminals s hs
    · exact hclosed rule hr hrhs
  have hreason : g.Closed reason := fun rule hr hrhs =>
    .inr ⟨rule, hr, rfl, fun t ht => hsub t (hrhs t ht)⟩
  exact ⟨fun hs => hleast ⟨fun t ht => .inl ht, hreason⟩ hs, hsub s⟩

end Grammar

/-! ## Witnesses -/

namespace Witnesses

variable {g : Grammar} {w : Witnesses} {s : Symbol}

/-- A closed set holds all symbols with grounded witnesses. -/
theorem Grounded.mem_of_closed {N : Set Symbol} (h : Grounded g w) (hN : g.Closed N)
    (hs : w.covers s = true) : s ∈ N := by
  induction w generalizing s with
  | nil => exact absurd hs (by simp [covers])
  | cons rule earlier ih =>
    obtain ⟨hr, -, hrhs, hearlier⟩ := h
    obtain ⟨found, hmem, rfl⟩ := covers_iff.1 hs
    rcases List.mem_cons.1 hmem with rfl | hmem
    · exact hN found hr fun t ht => ih hearlier (hrhs t ht)
    · exact ih hearlier (covers_iff.2 ⟨found, hmem, rfl⟩)

/-- The symbols with witnesses are the least closed set. -/
theorem isLeast_symbols (g : Grammar) :
    IsLeast {N : Set Symbol | g.Closed N} {s | s ∈ (ofGrammar g).symbols} := by
  refine ⟨fun rule hr hrhs => ?_, fun N hN s hs => ?_⟩
  · exact mem_symbols_iff.2 (lhs_covered hr fun s hs => mem_symbols_iff.1 (hrhs s hs))
  · exact (grounded_ofGrammar g).mem_of_closed hN (mem_symbols_iff.1 hs)

/-- The symbols with witnesses are the nullable ones. -/
theorem mem_symbols_ofGrammar_iff : s ∈ (ofGrammar g).symbols ↔ s ∈ g.nullable := by
  have hsame : {s | s ∈ (ofGrammar g).symbols} = {s | s ∈ g.nullable} :=
    (isLeast_symbols g).unique (Grammar.isLeast_nullable g)
  exact Set.ext_iff.1 hsame s

end Witnesses

/-! ## Trees without a leaf -/

/-- The trees have the given symbols at their roots and an empty yield: their rules are rules of the
grammar, and below each node there is a tree for every symbol on the right-hand side of its rule,
so that no symbol is left as a leaf. -/
structure Forest.Erases (g : Grammar) (forest : Forest) (form : List Symbol) : Prop where
  /-- There is one tree for each symbol. -/
  roots : forest.tops.map (·.1.lhs) = form
  /-- Only rules of the grammar are applied. -/
  rules : ∀ rule ∈ forest.rules, rule ∈ g.rules
  /-- Every symbol of a right-hand side is replaced, as if none were a terminal. -/
  branches : forest.Branches fun _ => false

namespace Grammar

variable {g : Grammar} {s : Symbol} {form : List Symbol} {forest : Forest}

/-- A closed set holds the roots of trees without a leaf. -/
theorem Closed.mem_of_erases {N : Set Symbol} (hN : g.Closed N) (h : forest.Erases g form) :
    ∀ s ∈ form, s ∈ N := by
  induction forest generalizing form with
  | nil =>
    obtain rfl := h.roots
    simp [Forest.tops]
  | cons index rule children siblings ihChildren ihSiblings =>
    obtain ⟨rfl, hrules, hbelow, hchildren, hsiblings⟩ := h
    simp only [Forest.rules, List.forall_mem_cons, List.forall_mem_append] at hrules
    obtain ⟨hr, hrulesBelow, hrulesBeside⟩ := hrules
    -- The trees below the first root are for all symbols of its rule.
    have hrhs : ∀ t ∈ rule.rhs, t ∈ N := by
      refine ihChildren ⟨?_, hrulesBelow, hchildren⟩
      rw [hbelow, Rule.variableList, List.filter_eq_self.2 (by simp)]
    exact List.forall_mem_cons.2 ⟨hN rule hr hrhs, ihSiblings ⟨rfl, hrulesBeside, hsiblings⟩⟩

/-- Trees without a leaf for single symbols stand side by side. -/
theorem exists_erases_of_forall (h : ∀ s ∈ form, ∃ tree : Forest, tree.Erases g [s]) :
    ∃ forest : Forest, forest.Erases g form := by
  induction form with
  | nil => exact ⟨.nil, rfl, by simp [Forest.rules], trivial⟩
  | cons s form ih =>
    obtain ⟨forest, hroots, hrules, hbranches⟩ := ih fun t ht => h t (by simp [ht])
    obtain ⟨tree, htree⟩ := h s (by simp)
    cases tree with
    | nil => exact absurd htree.roots (by simp [Forest.tops])
    | cons index rule children siblings =>
      obtain ⟨hroot, hrulesTree, hbelow, hchildren, -⟩ := htree
      simp only [Forest.rules, List.forall_mem_cons, List.forall_mem_append] at hrulesTree
      obtain ⟨hr, hrulesBelow, -⟩ := hrulesTree
      have hlhs : rule.lhs = s := by
        rw [Forest.tops, List.map_cons] at hroot
        exact (List.cons.inj hroot).1
      refine ⟨.cons index rule children forest, ?_, ?_, hbelow, hchildren, hbranches⟩
      · rw [Forest.tops, List.map_cons, hlhs, hroots]
      · simp only [Forest.rules, List.forall_mem_cons, List.forall_mem_append]
        exact ⟨hr, hrulesBelow, hrules⟩

/-- The nullable symbols are those that have a tree with an empty yield. -/
theorem mem_nullable_iff_tree : s ∈ g.nullable ↔ ∃ tree : Forest, tree.Erases g [s] := by
  obtain ⟨hclosed, hleast⟩ := isLeast_nullable g
  constructor
  · intro hs
    have htrees : g.Closed {s | ∃ tree : Forest, tree.Erases g [s]} := by
      intro rule hr hrhs
      obtain ⟨children, hroots, hrules, hbranches⟩ := exists_erases_of_forall hrhs
      refine ⟨.cons 0 rule children .nil, rfl, ?_, ?_, hbranches, trivial⟩
      · simp only [Forest.rules, List.append_nil, List.forall_mem_cons]
        exact ⟨hr, hrules⟩
      · rw [hroots, Rule.variableList, List.filter_eq_self.2 (by simp)]
    exact hleast htrees hs
  · rintro ⟨tree, htree⟩
    exact hclosed.mem_of_erases htree s (by simp)

/-- The nullable and the productive symbols of any grammar are exact. The nullable symbols are the
least closed set, and those with a tree whose yield is empty; the productive symbols are the least
closed set with the terminals, and each of them is a terminal or has a rule over productive symbols.
Both are what a stack of symbols finds that starts from the nulling rules. The search for witnesses
has the same members as the nullable symbols. In a valid grammar, the oracle that asks whether the
start symbol is nullable tells whether the empty word is in the language. -/
theorem nullable_and_productive_exact (g : Grammar) :
    IsLeast {N : Set Symbol | g.Closed N} {s | s ∈ g.nullable} ∧
    (∀ s, s ∈ g.nullable ↔ ∃ tree : Forest, tree.Erases g [s]) ∧
    IsLeast {N : Set Symbol | (∀ s, g.isTerminal s = true → s ∈ N) ∧ g.Closed N}
      {s | s ∈ g.productive} ∧
    (∀ s, s ∈ g.productive ↔ g.isTerminal s = true ∨
      ∃ rule ∈ g.rules, rule.lhs = s ∧ ∀ t ∈ rule.rhs, t ∈ g.productive) ∧
    g.closeByWork .all (g.markNulling (.ofWidth g.symbols.size)) = g.nullable ∧
    g.closeByWork .all (g.markNulling g.terminals) = g.productive ∧
    (∀ s, s ∈ (Witnesses.ofGrammar g).symbols ↔ s ∈ g.nullable) ∧
    (g.Valid → (EmptyOracle.nullableStart g = true ↔ g.Language [])) :=
  ⟨isLeast_nullable g, fun _ => mem_nullable_iff_tree, isLeast_productive g,
    fun _ => mem_productive_iff_rule, closeByWork_eq .., closeByWork_eq ..,
    fun _ => Witnesses.mem_symbols_ofGrammar_iff, startIsNullable_iff⟩

/-- The grammar with the rules `S → A B`, `A → B B`, `B → B A`, `B → ε` and `C → C c`. The empty
word is derived over a chain of variables and along a cycle, and `C` derives no word at all. -/
def erasable : Grammar :=
  Grammar.empty
    |>.addVariable (some "S")
    |>.addVariable (some "A")
    |>.addVariable (some "B")
    |>.addVariable (some "C")
    |>.addTerminal "c"
    |>.setStart ⟨0⟩
    |>.addRule ⟨⟨0⟩, [⟨1⟩, ⟨2⟩]⟩
    |>.addRule ⟨⟨1⟩, [⟨2⟩, ⟨2⟩]⟩
    |>.addRule ⟨⟨2⟩, [⟨2⟩, ⟨1⟩]⟩
    |>.addRule ⟨⟨2⟩, []⟩
    |>.addRule ⟨⟨3⟩, [⟨3⟩, ⟨4⟩]⟩

/-- The start symbol of this grammar is nullable, and the empty word is in its language. -/
theorem nullable_and_productive_exact_erasable :
    erasable.Valid ∧ EmptyOracle.nullableStart erasable = true ∧ erasable.Language [] ∧
      (∃ tree : Forest, tree.Erases erasable [⟨0⟩]) ∧ ⟨3⟩ ∉ erasable.productive := by
  have hvalid : erasable.Valid := validate_eq_ok_iff.1 (by decide +kernel)
  have hstart : EmptyOracle.nullableStart erasable = true := by decide +kernel
  obtain ⟨-, htree, -, -, -, -, -, horacle⟩ := nullable_and_productive_exact erasable
  exact ⟨hvalid, hstart, (horacle hvalid).1 hstart, (htree _).1 (by decide +kernel),
    by decide +kernel⟩

end Grammar

end ContextFree
