import ContextFree.Proofs.Chart.Fill
import ContextFree.Proofs.Grammar.Form

/-!
# Recognition is right

A recognizer holds the rules of its grammar by their forms (`Recognizer.Represents`). The cell of a
span has exactly the variables that yield the span (`Recognizer.Represents.contains_iff_yields`):
the first step of a derivation divides the span, and shorter spans have the right cells already. For
every variable in a cell, a derivation of the span can be read off the chart
(`Recognizer.Represents.derives_traceFrom`). An input is therefore accepted exactly when the start
symbol yields it (`Recognizer.Represents.accepted_iff_yields`), and then with a derivation
(`Recognizer.Represents.trace_spec`).
-/

namespace ContextFree

namespace Recognizer

/-- The recognizer has the start symbol and the rules of the grammar, all of them in normal form. -/
structure Represents (r : Recognizer) (g : Grammar) : Prop where
  /-- The start symbol is that of the grammar. -/
  start : g.start = some r.start
  /-- The grammar is in normal form. -/
  isNormal : g.isNormal = true
  /-- The rules are the forms of the grammar's rules, in order. -/
  rules : r.rules = g.rules.filterMap g.normalRule?

variable {r : Recognizer} {g : Grammar} {s a : Symbol} {input word : List Symbol} {i d : Nat}

/-- The forms of rules are found exactly when all of them are in normal form. -/
theorem normalRules_eq_ok_iff {rules : List Rule} {forms : List NormalRule} :
    normalRules g rules = .ok forms ↔
      rules.all g.isNormalRule = true ∧ forms = rules.filterMap g.normalRule? := by
  induction rules generalizing forms with
  | nil => simp [normalRules, eq_comm]
  | cons rule rules ih =>
    rw [normalRules, List.all_cons, Grammar.isNormalRule]
    cases hform : g.normalRule? rule with
    | none => simp
    | some form =>
      rw [List.filterMap_cons_some hform]
      dsimp only
      cases hrules : normalRules g rules with
      | error e =>
        -- Not all of the other rules are in normal form, or their forms would have been found.
        have hnot : rules.all g.isNormalRule ≠ true := by
          intro hall
          have hok := ih.2 ⟨hall, rfl⟩
          rw [hrules] at hok
          exact absurd hok (by simp)
        simp [Except.map, hnot]
      | ok rest =>
        obtain ⟨hall, rfl⟩ := ih.1 hrules
        simp [Except.map, hall, eq_comm]

/-- The recognizer made for a grammar is the one that represents it. -/
theorem ofGrammar_eq_ok_iff : ofGrammar g = .ok r ↔ r.Represents g := by
  obtain ⟨start, forms⟩ := r
  unfold ofGrammar
  cases hs : g.start with
  | none =>
    constructor
    · intro h
      exact absurd h (by simp)
    · intro h
      exact absurd (hs.symm.trans h.start) (by simp)
  | some start' =>
    dsimp only
    constructor
    · intro h
      cases hrules : normalRules g g.rules with
      | error e => simp [hrules, Except.map] at h
      | ok forms' =>
        rw [hrules] at h
        obtain ⟨rfl, rfl⟩ := Recognizer.mk.inj (Except.ok.inj h)
        obtain ⟨hn, hforms⟩ := normalRules_eq_ok_iff.1 hrules
        exact ⟨hs, hn, hforms⟩
    · intro h
      rw [normalRules_eq_ok_iff.2 ⟨h.isNormal, h.rules⟩]
      obtain rfl := Option.some.inj (hs.symm.trans h.start)
      rfl

/-- An input that is not empty has a chart. -/
theorem outcome_recognize (r : Recognizer) (hne : input ≠ []) :
    (r.recognize input).outcome = .ok (r.chart input) := by
  have hempty : input.isEmpty = false := by simpa using hne
  rw [recognize, hempty]
  rfl

namespace Represents

/-- The recognizer has the forms of the grammar's rules. -/
theorem mem_rules_iff (h : r.Represents g) {form : NormalRule} :
    form ∈ r.rules ↔ ∃ rule ∈ g.rules, g.normalRule? rule = some form := by
  rw [h.rules, List.mem_filterMap]

/-- The variables with a rule for a terminal. -/
theorem mem_derivers_iff (h : r.Represents g) : s ∈ r.derivers a ↔ ⟨s, [a]⟩ ∈ g.rules := by
  have hform : s ∈ r.derivers a ↔ NormalRule.lexical s a ∈ r.rules := by
    rw [derivers, List.mem_filterMap]
    constructor
    · rintro ⟨form, hm, hs⟩
      cases form with
      | lexical lhs b =>
        obtain ⟨rfl, rfl⟩ : b = a ∧ lhs = s := by simpa using hs
        exact hm
      | binary rule => exact absurd hs (by simp)
    · intro hm
      exact ⟨_, hm, by simp⟩
  rw [hform, h.mem_rules_iff]
  constructor
  · rintro ⟨rule, hm, hrule⟩
    obtain ⟨rfl, -⟩ := Grammar.normalRule?_eq_lexical_iff.1 hrule
    exact hm
  · intro hm
    exact ⟨_, hm, Grammar.normalRule?_eq_lexical_iff.2
      ⟨rfl, Grammar.isTerminal_of_isNormal h.isNormal hm⟩⟩

/-- The binary rules. -/
theorem mem_binaryRules_iff (h : r.Represents g) {rule : BinaryRule} :
    rule ∈ r.binaryRules ↔ rule.toRule ∈ g.rules := by
  have hform : rule ∈ r.binaryRules ↔ NormalRule.binary rule ∈ r.rules := by
    rw [binaryRules, List.mem_filterMap]
    constructor
    · rintro ⟨form, hm, hs⟩
      cases form with
      | lexical lhs b => exact absurd hs (by simp)
      | binary rule' =>
        obtain rfl : rule' = rule := by simpa using hs
        exact hm
    · intro hm
      exact ⟨_, hm, rfl⟩
  rw [hform, h.mem_rules_iff]
  constructor
  · rintro ⟨rule', hm, hrule⟩
    obtain ⟨rfl, -⟩ := Grammar.normalRule?_eq_binary_iff.1 hrule
    exact hm
  · intro hm
    exact ⟨_, hm, Grammar.normalRule?_eq_binary_iff.2
      ⟨rfl, Grammar.isVariable_of_isNormal h.isNormal hm⟩⟩

/-! ## The cells -/

/-- The cell of a single position has the variables with a rule for the terminal there. -/
theorem contains_single_iff (h : r.Represents g) (ha : input[i]? = some a) :
    ((r.fullChart input).diagonals.cell ⟨i, i⟩).contains s = true ↔ ⟨s, [a]⟩ ∈ g.rules := by
  have hcell : (r.fullChart input).diagonals.cell ⟨i, i⟩ = .ofDerivers (r.derivers a) := by
    rw [fullChart]
    dsimp only
    rw [cell_fill_single, lexicalCells, List.getElem?_map, ha]
    rfl
  rw [hcell, ← h.mem_derivers_iff, Cell.contains, Cell.ofDerivers, SymbolSet.contains_iff,
    SymbolSet.mem_ofList]

/-- The cell of a longer span has the reasons that the chart gives for it. -/
theorem cell_longer (r : Recognizer) (hi : i + (d + 1) < input.length) :
    (r.fullChart input).diagonals.cell ⟨i, i + (d + 1)⟩ =
      .ofReasons (reasons r.binaryRules (r.fullChart input).diagonals (d + 1) i) := by
  refine cell_fill_longer (by omega) ?_
  rw [lexicalCells, List.length_map]
  exact hi

/-- A variable is in the cell of a longer span exactly when there is a reason for it. -/
theorem contains_longer_iff (r : Recognizer) (hi : i + (d + 1) < input.length) :
    ((r.fullChart input).diagonals.cell ⟨i, i + (d + 1)⟩).contains s = true ↔
      ∃ reason ∈ reasons r.binaryRules (r.fullChart input).diagonals (d + 1) i,
        reason.rule.lhs = s := by
  rw [cell_longer r hi, Cell.contains, Cell.ofReasons, SymbolSet.contains_iff,
    SymbolSet.mem_ofList, List.mem_map]

/-- A variable that yields the symbols of a span is in the cell of the span. -/
theorem contains_of_yields (h : r.Represents g) (hi : i + d < input.length)
    (hy : g.Yields s ((⟨i, i + d⟩ : Span).slice input)) :
    ((r.fullChart input).diagonals.cell ⟨i, i + d⟩).contains s = true := by
  -- The parts of a span are shorter, so their cells have what the rest of the derivation needs.
  induction d using Nat.strongRecOn generalizing i s with
  | ind d ih =>
    rcases (Grammar.yields_iff_of_isNormal h.isNormal).1 hy with
      ⟨a, hm, hslice⟩ | ⟨binary, hm, rfl, u, v, hslice, hu, hv⟩
    -- A rule for a terminal derives a single position only.
    · have hlen := Span.length_slice hi
      rw [hslice, List.length_singleton] at hlen
      obtain rfl : d = 0 := by omega
      have hget : input[i]? = some input[i] := List.getElem?_eq_getElem (by omega)
      rw [Nat.add_zero] at hslice ⊢
      rw [Span.slice_single hget] at hslice
      obtain rfl : input[i] = a := List.cons.inj hslice |>.1
      exact (h.contains_single_iff hget).2 hm
    -- Neither part is empty, so the rule divides the span and is among the reasons for it.
    · have hune := hu.ne_nil h.isNormal
      have hvne := hv.ne_nil h.isNormal
      obtain ⟨k, hk, rfl, rfl⟩ := Span.exists_of_slice_eq_append hi hune hvne hslice
      obtain ⟨d, rfl⟩ : ∃ d', d = d' + 1 := ⟨d - 1, by omega⟩
      have hspan : i + (d + 1) = i + k + 1 + (d - k) := by omega
      have hleft := ih k hk (by omega) hu
      rw [hspan] at hv
      have hright := ih (d - k) (by omega) (by omega) hv
      rw [← hspan] at hright
      refine (contains_longer_iff r hi).2
        ⟨⟨binary, ⟨i, i + k⟩, ⟨i + k + 1, i + (d + 1)⟩⟩, ?_, rfl⟩
      exact mem_reasons_iff.2 ⟨h.mem_binaryRules_iff.2 hm, k, hk, rfl, rfl, hleft, hright⟩

/-- A variable in the cell of a span yields the symbols of the span. -/
theorem yields_of_contains (h : r.Represents g) (hi : i + d < input.length)
    (hc : ((r.fullChart input).diagonals.cell ⟨i, i + d⟩).contains s = true) :
    g.Yields s ((⟨i, i + d⟩ : Span).slice input) := by
  induction d using Nat.strongRecOn generalizing i s with
  | ind d ih =>
    rw [Grammar.yields_iff_of_isNormal h.isNormal]
    cases d with
    | zero =>
      have hget : input[i]? = some input[i] := List.getElem?_eq_getElem (by omega)
      rw [Nat.add_zero] at hc ⊢
      exact .inl ⟨input[i], (h.contains_single_iff hget).1 hc, Span.slice_single hget⟩
    | succ d =>
      -- The reason for the variable divides the span, and both parts are shorter.
      obtain ⟨reason, hreason, rfl⟩ := (contains_longer_iff r hi).1 hc
      obtain ⟨hrule, k, hk, -, -, hleft, hright⟩ := mem_reasons_iff.1 hreason
      have hspan : i + (d + 1) = i + k + 1 + (d - k) := by omega
      have hu := ih k hk (by omega) hleft
      rw [hspan] at hright
      have hv := ih (d - k) (by omega) (by omega) hright
      rw [← hspan] at hv
      exact .inr ⟨reason.rule, h.mem_binaryRules_iff.1 hrule, rfl, _, _,
        (Span.slice_append hk).symm, hu, hv⟩

/-- The cell of a span has exactly the variables that yield its symbols. -/
theorem contains_iff_yields (h : r.Represents g) (hi : i + d < input.length) :
    ((r.fullChart input).diagonals.cell ⟨i, i + d⟩).contains s = true ↔
      g.Yields s ((⟨i, i + d⟩ : Span).slice input) :=
  ⟨h.yields_of_contains hi, h.contains_of_yields hi⟩

/-- A reason for a span with the given rule and the given division of the span is found exactly when
the two variables of the rule yield the two parts. -/
theorem contains_parts_iff (h : r.Represents g) {k : Nat} (hk : k < d) (hi : i + d < input.length)
    {left right : Symbol} :
    ((r.fullChart input).diagonals.cell ⟨i, i + k⟩).contains left = true ∧
        ((r.fullChart input).diagonals.cell ⟨i + k + 1, i + d⟩).contains right = true ↔
      g.Yields left ((⟨i, i + k⟩ : Span).slice input) ∧
        g.Yields right ((⟨i + k + 1, i + d⟩ : Span).slice input) := by
  have hspan : i + d = i + k + 1 + (d - k - 1) := by omega
  rw [h.contains_iff_yields (by omega), hspan, h.contains_iff_yields (by omega)]

/-! ## Derivations -/

/-- The reasons of the chart for a variable to derive a span of the input. -/
theorem justifications_eq (r : Recognizer) (hi : i + d < input.length) :
    (r.fullChart input).justifications ⟨i, i + d⟩ s =
      ((r.fullChart input).diagonals.cell ⟨i, i + d⟩).justifications s := by
  have hspan : i ≤ i + d ∧ i + d < (r.fullChart input).length := ⟨by omega, hi⟩
  rw [Chart.justifications, Chart.cell?, if_pos hspan]
  rfl

/-- A single position has no reasons. -/
theorem justifications_single (r : Recognizer) (hi : i < input.length) :
    ((r.fullChart input).diagonals.cell ⟨i, i⟩).justifications s = [] := by
  rw [fullChart]
  dsimp only
  rw [cell_fill_single, lexicalCells, List.getElem?_map, List.getElem?_eq_getElem hi]
  rfl

/-- What is read off the chart for a variable in the cell of a span derives the span from it. -/
theorem derives_traceFrom (h : r.Represents g)
    (hl : ∀ rule ∈ g.rules, g.isTerminal rule.lhs = false) {fuel : Nat} (hf : d < fuel)
    (hi : i + d < input.length)
    (hc : ((r.fullChart input).diagonals.cell ⟨i, i + d⟩).contains s = true) :
    g.Derives ((r.fullChart input).traceFrom fuel s ⟨i, i + d⟩) [s]
      ((⟨i, i + d⟩ : Span).slice input) := by
  induction fuel generalizing d i s with
  | zero => exact absurd hf (Nat.not_lt_zero d)
  | succ fuel ih =>
    rw [Chart.traceFrom, justifications_eq r hi]
    cases d with
    | zero =>
      -- A single position has no reasons; the rule for its terminal is taken.
      have hget : input[i]? = some input[i] := List.getElem?_eq_getElem (by omega)
      have hm := (h.contains_single_iff hget).1 hc
      rw [Nat.add_zero, justifications_single r (by omega), Span.slice_single hget]
      have hinput : (r.fullChart input).input[i]? = some input[i] := hget
      rw [List.head?_nil]
      dsimp only
      rw [hinput]
      have ha := Grammar.isTerminal_of_isNormal h.isNormal hm
      exact (Grammar.derives_variable_iff (hl _ hm)).2
        ⟨_, hm, rfl, [], rfl, .ofTerminal ha .nil⟩
    | succ d =>
      obtain ⟨reason, hreason, hlhs⟩ := (contains_longer_iff r hi).1 hc
      rw [cell_longer r hi]
      cases hhead : ((Cell.ofReasons (reasons r.binaryRules (r.fullChart input).diagonals (d + 1)
          i)).justifications s).head? with
      | none =>
        -- A variable in the cell has a reason, so there is a first one to follow.
        rw [List.head?_eq_none_iff, Cell.justifications, List.filter_eq_nil_iff] at hhead
        exact absurd (decide_eq_true hlhs) (hhead reason hreason)
      | some reason =>
        obtain ⟨hreason, hlhs⟩ := List.mem_filter.1 (List.mem_of_head? hhead)
        obtain rfl : reason.rule.lhs = s := of_decide_eq_true hlhs
        obtain ⟨hrule, k, hk, hleft, hright, hcl, hcr⟩ := mem_reasons_iff.1 hreason
        have hm := h.mem_binaryRules_iff.1 hrule
        have hspan : i + (d + 1) = i + k + 1 + (d - k) := by omega
        have hfirst := ih (by omega) (by omega) hcl
        rw [hspan] at hcr
        have hsecond := ih (by omega) (by omega) hcr
        rw [← hspan] at hsecond
        dsimp only
        rw [hleft, hright, ← Span.slice_append hk]
        exact (Grammar.derives_variable_iff (hl _ hm)).2
          ⟨_, hm, rfl, _, rfl, hfirst.append hsecond⟩

/-! ## The decision -/

/-- Every symbol of a word that is yielded has a rule. -/
theorem derivers_ne_nil (h : r.Represents g) (hy : g.Yields s word) (ha : a ∈ word) :
    r.derivers a ≠ [] := by
  obtain ⟨rule, hm, -, hspells⟩ := hy
  obtain ⟨rule, hm, hrhs⟩ : ∃ rule ∈ g.rules, a ∈ rule.rhs := by
    rcases hspells.mem_or_mem_rhs ha with hrhs | hother
    · exact ⟨rule, hm, hrhs⟩
    · exact hother
  have hterminal := hspells.terminals a ha
  rcases Grammar.isNormalRule_iff.1 (List.all_eq_true.1 h.isNormal rule hm) with
    ⟨b, hb, -⟩ | ⟨b, c, hbc, hvb, hvc⟩
  · rw [hb, List.mem_singleton] at hrhs
    obtain ⟨lhs, rhs⟩ := rule
    subst hrhs hb
    exact List.ne_nil_of_mem (h.mem_derivers_iff.2 hm)
  · -- A terminal does not stand beside another symbol.
    rw [hbc] at hrhs
    have hvariable : g.isTerminal a = false := by
      rcases List.mem_cons.1 hrhs with rfl | hrhs
      · exact hvb
      · rw [List.mem_singleton.1 hrhs]
        exact hvc
    rw [hterminal] at hvariable
    exact absurd hvariable Bool.noConfusion

/-- The span of the whole input has all its symbols. -/
theorem slice_whole (hne : input ≠ []) :
    (⟨0, 0 + (input.length - 1)⟩ : Span).slice input = input := by
  have hpos := List.length_pos_iff.2 hne
  rw [Span.slice, Span.length_mk]
  dsimp only
  rw [List.drop_zero, Nat.sub_add_cancel hpos, List.take_length]

/-- A chart that is filled accepts the input exactly when the cell of the whole has the start
symbol. -/
theorem accepted_fullChart_iff (r : Recognizer) (input : List Symbol) :
    (r.fullChart input).accepted = true ↔
      ((r.fullChart input).diagonals.cell ⟨0, 0 + (input.length - 1)⟩).contains r.start = true := by
  rw [Nat.zero_add, Chart.accepted, fullChart]
  dsimp only
  split
  · next h => simp [h]
  · next h => simp [h]

/-- The chart of an input is filled if there is a rule for each of its symbols. -/
theorem chart_eq_fullChart (hrules : ∀ a ∈ input, r.derivers a ≠ []) :
    r.chart input = r.fullChart input := by
  have hnone : r.unrecognized? input = none := by
    rw [unrecognized?, List.findIdx?_eq_none_iff]
    intro a ha
    simpa using hrules a ha
  rw [chart, hnone]

/-- An input with a symbol that has no rule is not accepted. -/
theorem derivers_ne_nil_of_accepted (hacc : (r.chart input).accepted = true) :
    ∀ a ∈ input, r.derivers a ≠ [] := by
  unfold chart at hacc
  cases hposition : r.unrecognized? input with
  | some position =>
    rw [hposition] at hacc
    exact absurd hacc Bool.false_ne_true
  | none =>
    rw [unrecognized?, List.findIdx?_eq_none_iff] at hposition
    intro a ha
    simpa using hposition a ha

/-- An input that is not empty is accepted exactly when the start symbol yields it. -/
theorem accepted_iff_yields (h : r.Represents g) (hne : input ≠ []) :
    (r.chart input).accepted = true ↔ g.Yields r.start input := by
  have hpos := List.length_pos_iff.2 hne
  have hi : 0 + (input.length - 1) < input.length := by omega
  have hfull : (r.fullChart input).accepted = true ↔ g.Yields r.start input := by
    rw [accepted_fullChart_iff, h.contains_iff_yields hi, slice_whole hne]
  constructor
  · intro hacc
    rw [chart_eq_fullChart (derivers_ne_nil_of_accepted hacc)] at hacc
    exact hfull.1 hacc
  · intro hy
    rw [chart_eq_fullChart fun a ha => h.derivers_ne_nil hy ha]
    exact hfull.2 hy

/-- An input that is not empty is accepted, with a derivation of it, or the start symbol does not
yield it. -/
theorem trace_spec (h : r.Represents g) (hl : ∀ rule ∈ g.rules, g.isTerminal rule.lhs = false)
    (hne : input ≠ []) :
    (r.chart input).accepted = true ∧
        (∃ d, (r.chart input).trace = some d ∧ g.Derives d [r.start] input) ∨
      (r.chart input).accepted = false ∧ (r.chart input).trace = none ∧
        ¬g.Yields r.start input := by
  have hpos := List.length_pos_iff.2 hne
  cases hacc : (r.chart input).accepted with
  | true =>
    have hi : 0 + (input.length - 1) < input.length := by omega
    have hchart := chart_eq_fullChart (derivers_ne_nil_of_accepted hacc)
    rw [hchart] at hacc ⊢
    have hcell := (accepted_fullChart_iff r input).1 hacc
    have hd := h.derives_traceFrom hl (show input.length - 1 < input.length by omega) hi hcell
    rw [slice_whole hne, Nat.zero_add] at hd
    refine .inl ⟨rfl, _, ?_, hd⟩
    rw [Chart.trace, if_pos hacc]
    rfl
  | false =>
    refine .inr ⟨rfl, ?_, fun hy => ?_⟩
    · rw [Chart.trace, if_neg (by simp [hacc])]
    · rw [(h.accepted_iff_yields hne).2 hy] at hacc
      exact absurd hacc.symm Bool.false_ne_true

end Represents

end Recognizer

end ContextFree
