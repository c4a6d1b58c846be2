import ContextFree.Proofs.Chart.Canonical

/-!
# Why an input is rejected

Recognition stops at the first symbol that no rule derives in one step (`Grammar.StopsAt`). What is
left then is a chart with the cells of the single positions before it and with empty cells otherwise
(`Recognizer.cell?_chartUpTo_before`, `Recognizer.cell?_chartUpTo_empty`), in which there are no
reasons and from which no derivation can be read. If no symbol stops it, the chart is full, and what
is said about the input depends on the cell of the whole input alone
(`Recognizer.rejection_fullChart`). Together the two cases say when each rejection is given
(`Recognizer.rejection_exact`).
-/

namespace ContextFree

/-- The position is the first one whose symbol is not the right-hand side of any rule. -/
structure Grammar.StopsAt (g : Grammar) (input : List Symbol) (position : Nat) : Prop where
  /-- There is no rule for the symbol at the position. -/
  here : ∃ a, input[position]? = some a ∧ ∀ rule ∈ g.rules, rule.rhs ≠ [a]
  /-- There is a rule for each symbol before it. -/
  before : ∀ a ∈ input.take position, ∃ rule ∈ g.rules, rule.rhs = [a]

namespace Recognizer

variable {g : Grammar} {r : Recognizer} {input : List Symbol} {s a : Symbol}
  {position i first last : Nat}

/-! ## Where recognition stops -/

/-- The position found is the one where recognition stops. -/
theorem Represents.unrecognized?_eq_some_iff (h : r.Represents g) :
    r.unrecognized? input = some position ↔ g.StopsAt input position := by
  have hrule : ∀ a, (r.derivers a).isEmpty = true ↔ ∀ rule ∈ g.rules, rule.rhs ≠ [a] := by
    intro a
    rw [List.isEmpty_iff, ← Decidable.not_iff_not, ← ne_eq, h.derivers_ne_nil_iff]
    simp
  rw [unrecognized?, List.findIdx?_eq_some_iff_getElem]
  constructor
  · rintro ⟨hlt, hhere, hbefore⟩
    refine ⟨⟨_, List.getElem?_eq_getElem hlt, (hrule _).1 hhere⟩, fun a ha => ?_⟩
    obtain ⟨i, hi, rfl⟩ := List.mem_take_iff_getElem.1 ha
    refine h.derivers_ne_nil_iff.1 fun hnil => hbefore i (by omega) ?_
    exact List.isEmpty_iff.2 hnil
  · rintro ⟨⟨a, ha, hhere⟩, hbefore⟩
    obtain ⟨hlt, rfl⟩ := List.getElem?_eq_some_iff.1 ha
    refine ⟨hlt, (hrule _).2 hhere, fun i hi hempty => ?_⟩
    have hmem : input[i] ∈ input.take position :=
      List.mem_take_iff_getElem.2 ⟨i, by omega, rfl⟩
    exact h.derivers_ne_nil_iff.2 (hbefore _ hmem) (List.isEmpty_iff.1 hempty)

/-- If recognition stops nowhere, the chart is full. -/
theorem Represents.chart_eq_fullChart_of_forall (h : r.Represents g)
    (hnone : ∀ position, ¬g.StopsAt input position) : r.chart input = r.fullChart input := by
  have hsearch : r.unrecognized? input = none :=
    Option.eq_none_iff_forall_ne_some.2 fun p hp => hnone p (h.unrecognized?_eq_some_iff.1 hp)
  rw [chart, hsearch]

/-- If recognition stops somewhere, the chart is filled up to there. -/
theorem Represents.chart_eq_chartUpTo (h : r.Represents g) (hstop : g.StopsAt input position) :
    r.chart input = r.chartUpTo input position := by
  rw [chart, h.unrecognized?_eq_some_iff.2 hstop]

/-! ## The chart that is left -/

/-- A single position before the stop has the variables with a rule for the symbol there. -/
theorem cell?_chartUpTo_before (r : Recognizer) (hi : i < position) (ha : input[i]? = some a) :
    (r.chartUpTo input position).cell? ⟨i, i⟩ = some (.ofDerivers (r.derivers a)) := by
  have hlt : i < input.length := (List.getElem?_eq_some_iff.1 ha).1
  rw [Chart.cell?, if_pos ⟨Nat.le_refl i, hlt⟩]
  simp [chartUpTo, Diagonals.cell, lexicalCells, hi, ha]

/-- All other spans of the input have an empty cell. -/
theorem cell?_chartUpTo_empty (r : Recognizer) (hle : first ≤ last) (hlt : last < input.length)
    (hother : ¬(first = last ∧ last < position)) :
    (r.chartUpTo input position).cell? ⟨first, last⟩ = some .empty := by
  rw [Chart.cell?, if_pos ⟨hle, hlt⟩]
  rcases Nat.eq_or_lt_of_le hle with rfl | hlonger
  · have hbeyond : (r.lexicalCells (input.take position))[first]? = none := by
      apply List.getElem?_eq_none
      rw [lexicalCells, List.length_map, List.length_take]
      omega
    simp [chartUpTo, Diagonals.cell, hbeyond]
  · -- Only the diagonal of the single positions was begun.
    obtain ⟨d, hd⟩ : ∃ d, last - first = d + 1 := ⟨last - first - 1, by omega⟩
    simp [chartUpTo, Diagonals.cell, hd]

/-- No reason was found for anything. -/
theorem justifications_chartUpTo (r : Recognizer) (input : List Symbol) (position : Nat)
    (span : Span) (s : Symbol) : (r.chartUpTo input position).justifications span s = [] := by
  obtain ⟨first, last⟩ := span
  rw [Chart.justifications]
  by_cases hspan : first ≤ last ∧ last < input.length
  · by_cases hbefore : first = last ∧ last < position
    · obtain ⟨rfl, hlt⟩ := hbefore
      rw [cell?_chartUpTo_before r hlt (List.getElem?_eq_getElem hspan.2)]
      rfl
    · rw [cell?_chartUpTo_empty r hspan.1 hspan.2 hbefore]
      rfl
  · have hnone : (r.chartUpTo input position).cell? ⟨first, last⟩ = none := if_neg hspan
    rw [hnone]
    rfl

/-! ## The full chart -/

/-- A full chart rejects nothing, or says that the start symbol does not derive the input. -/
theorem rejection_fullChart (r : Recognizer) (input : List Symbol) :
    (r.fullChart input).rejection =
      if (r.fullChart input).accepted then none else some .notDerived := by
  unfold fullChart Chart.accepted
  dsimp only
  split
  · rfl
  · rfl

/-- The rejections of a chart are exact. For a grammar that has a recognizer and an input that is
not empty, recognition stops at a position exactly when it is the first one whose symbol is not the
right-hand side of any rule. Each single position before it then has exactly the variables with a
rule for the symbol there, all other spans of the input have an empty cell, there are no reasons,
and there is no derivation. If it stops nowhere, the input is rejected as not derived exactly when
the start symbol does not yield it. Otherwise it is not rejected, and the derivation read off the
chart is the canonical one, with which a walk through the chart ends. -/
theorem rejection_exact (hr : ofGrammar g = .ok r) (hne : input ≠ []) :
    ∃ chart, (r.recognize input).outcome = .ok chart ∧
      (∀ p, chart.rejection = some (.unrecognizedSymbol p) ↔ g.StopsAt input p) ∧
      (∀ p, g.StopsAt input p →
        (∀ i a, i < p → input[i]? = some a →
          ∃ cell, chart.cell? ⟨i, i⟩ = some cell ∧
            ∀ s, cell.contains s = true ↔ ⟨s, [a]⟩ ∈ g.rules) ∧
        (∀ first last, first ≤ last → last < input.length → ¬(first = last ∧ last < p) →
          chart.cell? ⟨first, last⟩ = some .empty) ∧
        (∀ span s, chart.justifications span s = []) ∧
        chart.trace = none) ∧
      ((∀ p, ¬g.StopsAt input p) →
        (chart.rejection = some .notDerived ↔ ¬g.Language input) ∧
        (chart.rejection = none ↔ g.Language input) ∧
        (g.Language input → ∃ d, chart.trace = some d ∧
          g.Canonical input r.start 0 (input.length - 1) d ∧
          chart.Leads ⟨[(r.start, chart.whole)], []⟩ ⟨[], d⟩)) := by
  have h := ofGrammar_eq_ok_iff.1 hr
  refine ⟨r.chart input, r.outcome_recognize hne, fun p => ⟨fun hp => ?_, fun hp => ?_⟩,
    fun p hp => ?_, fun hnone => ?_⟩
  · by_cases hstops : ∃ q, g.StopsAt input q
    · obtain ⟨q, hq⟩ := hstops
      rw [h.chart_eq_chartUpTo hq] at hp
      obtain rfl : q = p := by simpa [chartUpTo] using hp
      exact hq
    · rw [h.chart_eq_fullChart_of_forall (not_exists.1 hstops), rejection_fullChart] at hp
      split at hp <;> exact absurd hp (by simp)
  · rw [h.chart_eq_chartUpTo hp]
    rfl
  · rw [h.chart_eq_chartUpTo hp]
    refine ⟨fun i a hi ha => ⟨_, cell?_chartUpTo_before r hi ha, fun s => ?_⟩,
      fun first last => cell?_chartUpTo_empty r, justifications_chartUpTo r input p, rfl⟩
    rw [Cell.contains, Cell.ofDerivers, SymbolSet.contains_iff, SymbolSet.mem_ofList,
      h.mem_derivers_iff]
  · have haccepted : (r.chart input).accepted = true ↔ g.Language input := by
      rw [h.accepted_iff_yields hne, Grammar.Language]
      simp [h.start]
    have hchart := h.chart_eq_fullChart_of_forall hnone
    have hrejection : (r.chart input).rejection =
        if (r.chart input).accepted then none else some .notDerived := by
      rw [hchart, rejection_fullChart]
    rw [← haccepted, hrejection]
    refine ⟨?_, ?_, h.exists_trace hne⟩
    · cases (r.chart input).accepted with
      | true => simp
      | false => simp
    · cases (r.chart input).accepted with
      | true => simp
      | false => simp

/-- In the input `abab`, recognition stops at the first `b`, which no rule derives. The cell of the
first position has `S` and the terminal `b`, and that of the third position, which has an `a` again,
is empty. In the input `aa` it stops nowhere, and a walk ends with the derivation from `S`. -/
theorem rejection_exact_doubling :
    ∃ r chart chart', ofGrammar doubling = .ok r ∧
      (r.recognize [⟨1⟩, ⟨2⟩, ⟨1⟩, ⟨2⟩]).outcome = .ok chart ∧
      chart.rejection = some (.unrecognizedSymbol 1) ∧
      (∃ cell, chart.cell? ⟨0, 0⟩ = some cell ∧ cell.contains ⟨0⟩ = true ∧
        cell.contains ⟨2⟩ = true) ∧
      chart.cell? ⟨2, 2⟩ = some .empty ∧ chart.trace = none ∧
      (r.recognize [⟨1⟩, ⟨1⟩]).outcome = .ok chart' ∧ chart'.rejection = none ∧
      chart'.trace = some [⟨⟨0⟩, [⟨0⟩, ⟨0⟩]⟩, ⟨⟨0⟩, [⟨1⟩]⟩, ⟨⟨0⟩, [⟨1⟩]⟩] ∧
      chart'.Leads ⟨[(⟨0⟩, ⟨0, 1⟩)], []⟩
        ⟨[], [⟨⟨0⟩, [⟨0⟩, ⟨0⟩]⟩, ⟨⟨0⟩, [⟨1⟩]⟩, ⟨⟨0⟩, [⟨1⟩]⟩]⟩ := by
  have hr : ofGrammar doubling =
      .ok ⟨⟨0⟩, [.binary ⟨⟨0⟩, ⟨0⟩, ⟨0⟩⟩, .lexical ⟨0⟩ ⟨1⟩, .lexical ⟨2⟩ ⟨1⟩]⟩ := rfl
  have hstop : doubling.StopsAt [⟨1⟩, ⟨2⟩, ⟨1⟩, ⟨2⟩] 1 :=
    ⟨⟨⟨2⟩, rfl, by decide +kernel⟩, by decide +kernel⟩
  obtain ⟨chart, hchart, hwhere, hleft, -⟩ :=
    rejection_exact hr (List.cons_ne_nil ⟨1⟩ [⟨2⟩, ⟨1⟩, ⟨2⟩])
  obtain ⟨hbefore, hother, -, htrace⟩ := hleft 1 hstop
  obtain ⟨cell, hcell, hcontains⟩ := hbefore 0 ⟨1⟩ (by decide) rfl
  have hnone : ∀ p, ¬doubling.StopsAt [⟨1⟩, ⟨1⟩] p := by
    rintro p ⟨⟨a, ha, hrules⟩, -⟩
    obtain rfl : a = ⟨1⟩ := by simpa using List.mem_of_getElem? ha
    exact hrules ⟨⟨0⟩, [⟨1⟩]⟩ (by decide +kernel) rfl
  obtain ⟨chart', hchart', -, -, hfull⟩ := rejection_exact hr (List.cons_ne_nil ⟨1⟩ [⟨1⟩])
  obtain ⟨-, haccepted, hwalk⟩ := hfull hnone
  obtain rfl := Except.ok.inj ((outcome_recognize _ (List.cons_ne_nil _ _)).symm.trans hchart')
  obtain ⟨d, hd, -, hleads⟩ := hwalk (haccepted.1 (by decide +kernel))
  obtain rfl : d = [⟨⟨0⟩, [⟨0⟩, ⟨0⟩]⟩, ⟨⟨0⟩, [⟨1⟩]⟩, ⟨⟨0⟩, [⟨1⟩]⟩] :=
    Option.some.inj (hd.symm.trans (by decide +kernel))
  exact ⟨_, chart, _, hr, hchart, (hwhere 1).2 hstop,
    ⟨cell, hcell, (hcontains _).2 (by decide +kernel), (hcontains _).2 (by decide +kernel)⟩,
    hother 2 2 (by decide) (by decide) (by decide), htrace, hchart', by decide +kernel, hd, hleads⟩

end Recognizer

end ContextFree
