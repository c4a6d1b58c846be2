import ContextFree.Proofs.Chart.Recognition

/-!
# What a chart says

The facts about charts, stated for a grammar that has a recognizer and for what recognition returns.
Such a grammar is in normal form but need not be valid, so a terminal may have rules, too. If there
is a rule for each symbol of an input, every span of it has a cell with exactly the symbols that
yield the span, and an input is accepted exactly when it is in the language
(`Recognizer.recognize_cells_exact`).
-/

namespace ContextFree.Recognizer

variable {g : Grammar} {r : Recognizer} {input : List Symbol}

/-- Some variable derives a symbol in one step exactly when there is a rule for the symbol. -/
theorem Represents.derivers_ne_nil_iff (h : r.Represents g) {a : Symbol} :
    r.derivers a ≠ [] ↔ ∃ rule ∈ g.rules, rule.rhs = [a] := by
  constructor
  · intro hne
    obtain ⟨s, hs⟩ := List.exists_mem_of_ne_nil _ hne
    exact ⟨_, h.mem_derivers_iff.1 hs, rfl⟩
  · rintro ⟨⟨lhs, rhs⟩, hm, rfl⟩
    exact List.ne_nil_of_mem (h.mem_derivers_iff.2 hm)

/-- Where there is a rule for each symbol of the input, every span has a cell, which has exactly the
symbols that yield the span. -/
theorem Represents.exists_cell (h : r.Represents g)
    (hrules : ∀ a ∈ input, ∃ rule ∈ g.rules, rule.rhs = [a]) {first last : Nat}
    (hle : first ≤ last) (hlt : last < input.length) :
    ∃ cell, (r.chart input).cell? ⟨first, last⟩ = some cell ∧
      ∀ s, cell.contains s = true ↔ g.Yields s ((⟨first, last⟩ : Span).slice input) := by
  obtain ⟨d, rfl⟩ := Nat.exists_eq_add_of_le hle
  rw [chart_eq_fullChart fun a ha => h.derivers_ne_nil_iff.2 (hrules a ha)]
  exact ⟨_, if_pos ⟨hle, hlt⟩, fun s => h.contains_iff_yields hlt⟩

/-- A recognizer fills the chart of every input that is not empty. If the grammar has a rule for
each symbol of the input, the cell of each span has exactly the symbols that yield the span by one
of their rules. Whether it has or not, the input is accepted exactly when the start symbol yields
all of it. -/
theorem recognize_cells_exact (hr : ofGrammar g = .ok r) (hne : input ≠ []) :
    ∃ chart, (r.recognize input).outcome = .ok chart ∧
      ((∀ a ∈ input, ∃ rule ∈ g.rules, rule.rhs = [a]) →
        ∀ first last, first ≤ last → last < input.length →
          ∃ cell, chart.cell? ⟨first, last⟩ = some cell ∧
            ∀ s, cell.contains s = true ↔ g.Yields s ((⟨first, last⟩ : Span).slice input)) ∧
      (chart.accepted = true ↔ g.Language input) := by
  have h := ofGrammar_eq_ok_iff.1 hr
  refine ⟨r.chart input, r.outcome_recognize hne, fun hrules first last => h.exists_cell hrules, ?_⟩
  rw [h.accepted_iff_yields hne, Grammar.Language]
  simp [h.start]

/-- The grammar with the rules `S → S S`, `S → a` and `b → a`, the last of which is for a terminal.
-/
def doubling : Grammar :=
  Grammar.empty
    |>.addVariable (some "S")
    |>.addTerminal "a"
    |>.addTerminal "b"
    |>.setStart ⟨0⟩
    |>.addRule ⟨⟨0⟩, [⟨0⟩, ⟨0⟩]⟩
    |>.addRule ⟨⟨0⟩, [⟨1⟩]⟩
    |>.addRule ⟨⟨2⟩, [⟨1⟩]⟩

/-- In the chart of `aaa`, the terminal `b` is in the cell of a single position, `S` is in the cell
of the last two, and the input is accepted. -/
theorem recognize_cells_exact_doubling :
    ∃ r chart, ofGrammar doubling = .ok r ∧
      (r.recognize [⟨1⟩, ⟨1⟩, ⟨1⟩]).outcome = .ok chart ∧
      (∃ cell, chart.cell? ⟨1, 1⟩ = some cell ∧ cell.contains ⟨2⟩ = true) ∧
      (∃ cell, chart.cell? ⟨1, 2⟩ = some cell ∧ cell.contains ⟨0⟩ = true) ∧
      chart.accepted = true := by
  have hr : ofGrammar doubling =
      .ok ⟨⟨0⟩, [.binary ⟨⟨0⟩, ⟨0⟩, ⟨0⟩⟩, .lexical ⟨0⟩ ⟨1⟩, .lexical ⟨2⟩ ⟨1⟩]⟩ := rfl
  obtain ⟨chart, hchart, hcells, haccepted⟩ :=
    recognize_cells_exact hr (List.cons_ne_nil ⟨1⟩ [⟨1⟩, ⟨1⟩])
  have hrules : ∀ a ∈ [⟨1⟩, ⟨1⟩, ⟨1⟩], ∃ rule ∈ doubling.rules, rule.rhs = [a] := by
    decide +kernel
  obtain ⟨single, hsingle, hyields⟩ := hcells hrules 1 1 (by decide) (by decide)
  obtain ⟨double, hdouble, hyields'⟩ := hcells hrules 1 2 (by decide) (by decide)
  have htwo : doubling.LeftmostDerivation
      [⟨⟨0⟩, [⟨0⟩, ⟨0⟩]⟩, ⟨⟨0⟩, [⟨1⟩]⟩, ⟨⟨0⟩, [⟨1⟩]⟩] ⟨0⟩ [⟨1⟩, ⟨1⟩] := by
    decide +kernel
  have hthree : doubling.LeftmostDerivation
      [⟨⟨0⟩, [⟨0⟩, ⟨0⟩]⟩, ⟨⟨0⟩, [⟨1⟩]⟩, ⟨⟨0⟩, [⟨0⟩, ⟨0⟩]⟩, ⟨⟨0⟩, [⟨1⟩]⟩, ⟨⟨0⟩, [⟨1⟩]⟩] ⟨0⟩
      [⟨1⟩, ⟨1⟩, ⟨1⟩] := by
    decide +kernel
  have hv : doubling.isTerminal ⟨0⟩ = false := by decide +kernel
  refine ⟨_, chart, hr, hchart, ⟨single, hsingle, (hyields _).2 ?_⟩,
    ⟨double, hdouble, (hyields' _).2 ?_⟩, haccepted.2 ⟨⟨0⟩, rfl, ?_⟩⟩
  · exact ⟨⟨⟨2⟩, [⟨1⟩]⟩, by decide +kernel, rfl, .ofTerminal (by decide +kernel) .nil⟩
  · exact (Grammar.yields_iff_spells hv).2 (Grammar.leftmostDerivation_iff.1 htwo).spells
  · exact (Grammar.yields_iff_spells hv).2 (Grammar.leftmostDerivation_iff.1 hthree).spells

end ContextFree.Recognizer
