import ContextFree.Proofs.Chart.Outcome
import ContextFree.Proofs.Grammar.Construction
import Mathlib.Data.List.Basic

/-!
# The reasons in a chart

A chart keeps every reason for a variable to derive a span, not only the first one it finds. The
reasons are exactly the ways to divide the span between the variables of a binary rule
(`Chart.Supports`), and they stand in the order of the place where the span is divided, then in that
of the rules of the grammar (`Grammar.Sooner`). Where the rules of the grammar are distinct this
order is strict, so no reason stands twice (`Recognizer.justifications_exact`).
-/

namespace ContextFree

/-- The two variables of a rule with two symbols on its right-hand side. -/
def Rule.binary? (rule : Rule) : Option BinaryRule :=
  match rule.rhs with
  | [left, right] => some ⟨rule.lhs, left, right⟩
  | _ => none

/-- A rule is binary exactly when it is the rule of its two variables. -/
theorem Rule.binary?_eq_some_iff {rule : Rule} {binary : BinaryRule} :
    rule.binary? = some binary ↔ rule = binary.toRule := by
  obtain ⟨lhs, rhs⟩ := rule
  unfold binary?
  constructor
  · intro h
    split at h
    · next left right hrhs =>
      obtain rfl : rhs = [left, right] := hrhs
      obtain rfl := Option.some.inj h
      rfl
    · exact absurd h (by simp)
  · intro h
    obtain ⟨rfl, rfl⟩ := Rule.mk.inj h
    rfl

namespace Chart

/-- Whether the symbol is in the cell of the span; a span that is not one of the input has no cell.
-/
def holds (chart : Chart) (span : Span) (s : Symbol) : Bool :=
  (chart.cell? span).any (·.contains s)

/-- The reason is a way to derive the positions from `first` to `last` from the symbol: its rule is
one of the grammar for the symbol, its spans divide these positions, and the chart has the two
variables of the rule in the cells of the two spans. -/
structure Supports (chart : Chart) (g : Grammar) (first last : Nat) (s : Symbol)
    (reason : Justification) : Prop where
  /-- The rule is one of the grammar. -/
  mem : reason.rule.toRule ∈ g.rules
  /-- The rule is for the symbol. -/
  lhs : reason.rule.lhs = s
  /-- The spans divide the positions. -/
  divides : ∃ k, first ≤ k ∧ k < last ∧ reason.left = ⟨first, k⟩ ∧ reason.right = ⟨k + 1, last⟩
  /-- The first variable is in the cell of the first part. -/
  left : chart.holds reason.left reason.rule.left = true
  /-- The second variable is in the cell of the second part. -/
  right : chart.holds reason.right reason.rule.right = true

end Chart

/-- Whether the rule is for the symbol and its variables are in the cells of the two parts of the
positions from `first` to `last`, of which the first part ends with position `k`. -/
def Diagonals.joins (diagonals : Diagonals) (first k last : Nat) (s : Symbol)
    (rule : BinaryRule) : Bool :=
  rule.lhs = s && (diagonals.cell ⟨first, k⟩).contains rule.left &&
    (diagonals.cell ⟨k + 1, last⟩).contains rule.right

theorem Diagonals.joins_iff {diagonals : Diagonals} {first k last : Nat} {s : Symbol}
    {rule : BinaryRule} :
    diagonals.joins first k last s rule = true ↔
      rule.lhs = s ∧ (diagonals.cell ⟨first, k⟩).contains rule.left = true ∧
        (diagonals.cell ⟨k + 1, last⟩).contains rule.right = true := by
  rw [joins, Bool.and_eq_true, Bool.and_eq_true, decide_eq_true_iff, and_assoc]

/-- The first reason divides its span further to the left, or at the same place and by a rule that
the grammar has further in front. -/
def Grammar.Sooner (g : Grammar) (reason reason' : Justification) : Prop :=
  reason.left.last < reason'.left.last ∨
    reason.left.last = reason'.left.last ∧
      g.rules.idxOf reason.rule.toRule < g.rules.idxOf reason'.rule.toRule

/-- No reason is sooner than itself. -/
theorem Grammar.Sooner.ne {g : Grammar} {reason reason' : Justification}
    (h : g.Sooner reason reason') : reason ≠ reason' := by
  rintro rfl
  unfold Grammar.Sooner at h
  omega

/-- In a list without repetitions, what stands further in front has the smaller place. -/
theorem pairwise_idxOf_of_nodup {rules : List Rule} (h : rules.Nodup) :
    rules.Pairwise fun a b => rules.idxOf a < rules.idxOf b := by
  rw [List.pairwise_iff_getElem]
  intro i j hi hj hij
  rw [h.idxOf_getElem i hi, h.idxOf_getElem j hj]
  exact hij

namespace Recognizer

variable {g : Grammar} {r : Recognizer} {input : List Symbol} {s : Symbol} {i j : Nat}
  {reason : Justification}

namespace Represents

/-- The binary rules of the recognizer are those of the grammar, in order. -/
theorem binaryRules_eq (h : r.Represents g) : r.binaryRules = g.rules.filterMap Rule.binary? := by
  unfold binaryRules
  rw [h.rules, List.filterMap_filterMap]
  refine List.filterMap_congr fun rule hm => ?_
  rcases Grammar.isNormalRule_iff.1 (List.all_eq_true.1 h.isNormal rule hm) with
    ⟨a, ha, hterminal⟩ | ⟨b, c, hbc, hb, hc⟩
  · simp [Grammar.normalRule?, Rule.binary?, ha, hterminal]
  · simp [Grammar.normalRule?, Rule.binary?, Grammar.isVariable, hbc, hb, hc]

/-- A symbol is in the cell of a span of the input exactly when the chart holds it there. -/
theorem holds_fullChart_iff :
    (r.fullChart input).holds ⟨i, j⟩ s = true ↔
      i ≤ j ∧ j < input.length ∧
        ((r.fullChart input).diagonals.cell ⟨i, j⟩).contains s = true := by
  unfold Chart.holds Chart.cell?
  by_cases hspan : i ≤ j ∧ j < (r.fullChart input).length
  · have hlt : j < input.length := hspan.2
    rw [if_pos hspan]
    simp [hspan.1, hlt]
  · have hnot : ¬(i ≤ j ∧ j < input.length) := hspan
    rw [if_neg hspan]
    constructor
    · intro h
      exact absurd h (by simp)
    · rintro ⟨hle, hlt, -⟩
      exact absurd ⟨hle, hlt⟩ hnot

/-- The reasons for a symbol to derive a longer span, division by division and rule by rule. -/
theorem justifications_longer (r : Recognizer) {d : Nat} (hi : i + (d + 1) < input.length) :
    (r.fullChart input).justifications ⟨i, i + (d + 1)⟩ s =
      (List.range (d + 1)).flatMap fun k =>
        (r.binaryRules.filter
          ((r.fullChart input).diagonals.joins i (i + k) (i + (d + 1)) s)).map
            fun rule => ⟨rule, ⟨i, i + k⟩, ⟨i + k + 1, i + (d + 1)⟩⟩ := by
  rw [justifications_eq r hi, cell_longer r hi, Cell.justifications, Cell.ofReasons, reasons]
  dsimp only
  rw [List.filter_flatMap]
  refine List.flatMap_congr fun k _ => ?_
  unfold reasonsAt
  dsimp only
  rw [List.filter_map, List.filter_filter]
  refine congrArg _ (List.filter_congr fun rule _ => ?_)
  simp [Diagonals.joins, Bool.and_assoc]

/-- Outside of the input there are no reasons. -/
theorem justifications_outside (r : Recognizer) (hj : input.length ≤ j) :
    (r.fullChart input).justifications ⟨i, j⟩ s = [] := by
  have hspan : ¬(i ≤ j ∧ j < (r.fullChart input).length) := by
    intro h
    exact absurd h.2 (Nat.not_lt.2 hj)
  rw [Chart.justifications, Chart.cell?, if_neg hspan]
  rfl

/-- A single position has no reasons, whether it is one of the input or not. -/
theorem justifications_fullChart_single (r : Recognizer) (i : Nat) (s : Symbol) :
    (r.fullChart input).justifications ⟨i, i⟩ s = [] := by
  rcases Nat.lt_or_ge i input.length with hlt | hge
  · have heq := justifications_eq (s := s) (d := 0) r hlt
    rw [Nat.add_zero] at heq
    rw [heq, justifications_single r hlt]
  · exact justifications_outside r hge

/-- The reasons for a longer span are exactly those that support it. -/
theorem mem_justifications_iff (h : r.Represents g) (hij : i < j) :
    reason ∈ (r.fullChart input).justifications ⟨i, j⟩ s ↔
      (r.fullChart input).Supports g i j s reason := by
  rcases Nat.lt_or_ge j input.length with hlt | hge
  · obtain ⟨d, rfl⟩ : ∃ d, j = i + (d + 1) := ⟨j - i - 1, by omega⟩
    rw [justifications_longer r hlt, List.mem_flatMap]
    constructor
    · rintro ⟨k, hk, hreason⟩
      rw [List.mem_range] at hk
      obtain ⟨rule, hrule, rfl⟩ := List.mem_map.1 hreason
      obtain ⟨hm, hparts⟩ := List.mem_filter.1 hrule
      obtain ⟨hlhs, hleft, hright⟩ := Diagonals.joins_iff.1 hparts
      exact ⟨h.mem_binaryRules_iff.1 hm, hlhs, ⟨i + k, by omega, by omega, rfl, rfl⟩,
        holds_fullChart_iff.2 ⟨by omega, by omega, hleft⟩,
        holds_fullChart_iff.2 ⟨by omega, by omega, hright⟩⟩
    · obtain ⟨rule, left, right⟩ := reason
      rintro ⟨hm, hlhs, ⟨k, hik, hk, rfl, rfl⟩, hleft, hright⟩
      obtain ⟨k, rfl⟩ := Nat.exists_eq_add_of_le hik
      obtain ⟨-, -, hleft⟩ := holds_fullChart_iff.1 hleft
      obtain ⟨-, -, hright⟩ := holds_fullChart_iff.1 hright
      refine ⟨k, List.mem_range.2 (by omega), List.mem_map.2 ⟨rule, ?_, rfl⟩⟩
      exact List.mem_filter.2 ⟨h.mem_binaryRules_iff.2 hm,
        Diagonals.joins_iff.2 ⟨hlhs, hleft, hright⟩⟩
  · -- The second part would end where the span does, beyond the input.
    rw [justifications_outside r hge]
    constructor
    · intro hreason
      exact absurd hreason List.not_mem_nil
    · rintro ⟨-, -, ⟨k, -, -, -, hspan⟩, -, hright⟩
      rw [hspan] at hright
      obtain ⟨-, hlt, -⟩ := holds_fullChart_iff.1 hright
      exact absurd hlt (Nat.not_lt.2 hge)

/-- The reasons for a longer span stand in strict order if the rules are distinct. -/
theorem pairwise_justifications (h : r.Represents g) (hg : g.rules.Nodup) (hij : i < j) :
    ((r.fullChart input).justifications ⟨i, j⟩ s).Pairwise g.Sooner := by
  rcases Nat.lt_or_ge j input.length with hlt | hge
  · obtain ⟨d, rfl⟩ : ∃ d, j = i + (d + 1) := ⟨j - i - 1, by omega⟩
    have hrules : r.binaryRules.Pairwise fun rule rule' =>
        g.rules.idxOf rule.toRule < g.rules.idxOf rule'.toRule := by
      rw [h.binaryRules_eq, List.pairwise_filterMap]
      refine (pairwise_idxOf_of_nodup hg).imp fun hlt binary hbinary binary' hbinary' => ?_
      rw [Rule.binary?_eq_some_iff] at hbinary hbinary'
      rwa [← hbinary, ← hbinary']
    rw [justifications_longer r hlt, List.pairwise_flatMap]
    constructor
    -- Where the span is divided at one place, the rules decide.
    · intro k _
      rw [List.pairwise_map]
      exact (hrules.filter _).imp fun hlt => .inr ⟨rfl, hlt⟩
    -- Of two places, the one further to the left comes first.
    · refine List.pairwise_lt_range.imp fun hlt reason hreason reason' hreason' => ?_
      obtain ⟨rule, -, rfl⟩ := List.mem_map.1 hreason
      obtain ⟨rule', -, rfl⟩ := List.mem_map.1 hreason'
      exact .inl (by dsimp only; omega)
  · rw [justifications_outside r hge]
    exact .nil

/-- A symbol is in the cell of a longer span exactly when there is a reason for it. -/
theorem holds_iff_justifications_ne_nil (r : Recognizer) (hij : i < j) :
    (r.fullChart input).holds ⟨i, j⟩ s = true ↔
      (r.fullChart input).justifications ⟨i, j⟩ s ≠ [] := by
  rw [holds_fullChart_iff]
  rcases Nat.lt_or_ge j input.length with hlt | hge
  · obtain ⟨d, rfl⟩ : ∃ d, j = i + (d + 1) := ⟨j - i - 1, by omega⟩
    rw [contains_longer_iff r hlt, justifications_eq r hlt, cell_longer r hlt, Cell.justifications,
      Ne, List.filter_eq_nil_iff]
    simp [Cell.ofReasons, hlt]
  · rw [justifications_outside r hge]
    simp [Nat.not_lt.2 hge]

end Represents

/-- A recognizer fills the chart of every input that is not empty and has a rule for each of its
symbols. If the rules of the grammar are distinct, the reasons for a symbol to derive a span of two
or more positions are exactly the ways to divide the span that the chart supports, each of them
once, by the place of the division and then by the order of the rules. The symbol is in the cell of
the span exactly when there is a reason for it, and a single position has none. -/
theorem justifications_exact (hg : g.Built) (hr : ofGrammar g = .ok r) (hne : input ≠ [])
    (hrules : ∀ a ∈ input, ∃ rule ∈ g.rules, rule.rhs = [a]) :
    ∃ chart, (r.recognize input).outcome = .ok chart ∧
      (∀ first last s, first < last →
        (∀ reason, reason ∈ chart.justifications ⟨first, last⟩ s ↔
          chart.Supports g first last s reason) ∧
        (chart.justifications ⟨first, last⟩ s).Pairwise g.Sooner ∧
        (chart.justifications ⟨first, last⟩ s).Nodup ∧
        (chart.holds ⟨first, last⟩ s = true ↔ chart.justifications ⟨first, last⟩ s ≠ [])) ∧
      ∀ i s, chart.justifications ⟨i, i⟩ s = [] := by
  have h := ofGrammar_eq_ok_iff.1 hr
  have hfull : r.chart input = r.fullChart input :=
    Represents.chart_eq_fullChart fun a ha => h.derivers_ne_nil_iff.2 (hrules a ha)
  refine ⟨r.fullChart input, hfull ▸ r.outcome_recognize hne, ?_, ?_⟩
  · intro first last s hlt
    have hsooner : ((r.fullChart input).justifications ⟨first, last⟩ s).Pairwise g.Sooner :=
      h.pairwise_justifications hg.wellFormed.nodup hlt
    exact ⟨fun reason => h.mem_justifications_iff hlt, hsooner, hsooner.imp Grammar.Sooner.ne,
      Represents.holds_iff_justifications_ne_nil r hlt⟩
  · exact Represents.justifications_fullChart_single r

/-- The grammar with the rules `S → S T`, `S → S S`, `S → a` and `T → a`. -/
def leaning : Grammar :=
  Grammar.empty
    |>.addVariable (some "S")
    |>.addVariable (some "T")
    |>.addTerminal "a"
    |>.setStart ⟨0⟩
    |>.addRule ⟨⟨0⟩, [⟨0⟩, ⟨1⟩]⟩
    |>.addRule ⟨⟨0⟩, [⟨0⟩, ⟨0⟩]⟩
    |>.addRule ⟨⟨0⟩, [⟨2⟩]⟩
    |>.addRule ⟨⟨1⟩, [⟨2⟩]⟩

theorem leaning_built : leaning.Built :=
  .addRule _ (.addRule _ (.addRule _ (.addRule _ (.setStart _ (.addTerminal _ (.addVariable _
    (.addVariable _ .empty)))))))

theorem ofGrammar_leaning :
    ofGrammar leaning = .ok ⟨⟨0⟩, [.binary ⟨⟨0⟩, ⟨0⟩, ⟨1⟩⟩, .binary ⟨⟨0⟩, ⟨0⟩, ⟨0⟩⟩,
      .lexical ⟨0⟩ ⟨2⟩, .lexical ⟨1⟩ ⟨2⟩]⟩ :=
  rfl

/-- For all of `aaa` the second rule is the only reason where the input is divided after its first
position, and both binary rules are reasons where it is divided after the second. -/
theorem justifications_exact_leaning :
    ∃ r chart, ofGrammar leaning = .ok r ∧
      (r.recognize [⟨2⟩, ⟨2⟩, ⟨2⟩]).outcome = .ok chart ∧
      chart.justifications ⟨0, 2⟩ ⟨0⟩ =
        [⟨⟨⟨0⟩, ⟨0⟩, ⟨0⟩⟩, ⟨0, 0⟩, ⟨1, 2⟩⟩, ⟨⟨⟨0⟩, ⟨0⟩, ⟨1⟩⟩, ⟨0, 1⟩, ⟨2, 2⟩⟩,
          ⟨⟨⟨0⟩, ⟨0⟩, ⟨0⟩⟩, ⟨0, 1⟩, ⟨2, 2⟩⟩] ∧
      (∀ reason ∈ chart.justifications ⟨0, 2⟩ ⟨0⟩, chart.Supports leaning 0 2 ⟨0⟩ reason) ∧
      (chart.justifications ⟨0, 2⟩ ⟨0⟩).Pairwise leaning.Sooner ∧
      chart.holds ⟨0, 2⟩ ⟨0⟩ = true ∧ chart.justifications ⟨1, 1⟩ ⟨0⟩ = [] := by
  have hrules : ∀ a ∈ [⟨2⟩, ⟨2⟩, ⟨2⟩], ∃ rule ∈ leaning.rules, rule.rhs = [a] := by
    decide +kernel
  obtain ⟨chart, hchart, hlonger, hsingle⟩ :=
    justifications_exact leaning_built ofGrammar_leaning (List.cons_ne_nil ⟨2⟩ [⟨2⟩, ⟨2⟩]) hrules
  obtain ⟨hmem, hsooner, -, hholds⟩ := hlonger 0 2 ⟨0⟩ (by decide)
  have hlist : chart.justifications ⟨0, 2⟩ ⟨0⟩ =
      [⟨⟨⟨0⟩, ⟨0⟩, ⟨0⟩⟩, ⟨0, 0⟩, ⟨1, 2⟩⟩, ⟨⟨⟨0⟩, ⟨0⟩, ⟨1⟩⟩, ⟨0, 1⟩, ⟨2, 2⟩⟩,
        ⟨⟨⟨0⟩, ⟨0⟩, ⟨0⟩⟩, ⟨0, 1⟩, ⟨2, 2⟩⟩] := by
    obtain rfl := Except.ok.inj ((outcome_recognize _ (List.cons_ne_nil _ _)).symm.trans hchart)
    decide +kernel
  refine ⟨_, chart, ofGrammar_leaning, hchart, hlist, fun reason => (hmem reason).1, hsooner,
    hholds.2 ?_, hsingle 1 ⟨0⟩⟩
  rw [hlist]
  exact List.cons_ne_nil _ _

end Recognizer

end ContextFree
