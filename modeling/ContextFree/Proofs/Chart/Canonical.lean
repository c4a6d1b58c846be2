import ContextFree.Proofs.Chart.Justification
import Mathlib.Data.List.MinMax
import Mathlib.Data.Prod.Lex
import Mathlib.Logic.Relation

/-!
# The canonical derivation

An input may have many derivations, and a chart has them all. The one that is read off it is fixed
by the grammar and the input alone: every span is divided as far to the left as it can be, by the
first rule that divides it there (`Grammar.FirstDivision`), and the rules are written down in
pre-order (`Grammar.Canonical`). There is at most one such derivation
(`Grammar.Canonical.unique`). The first reason of a chart is the first division
(`Recognizer.Represents.head?_justifications_eq_some_iff`), and also the one with the leftmost parts
(`Recognizer.Represents.chosen?_eq_head?`), so that walking through the chart with the open places
on a stack ends with the derivation that `Chart.trace` gives (`Recognizer.trace_canonical`).
-/

namespace ContextFree

/-- The form of a rule says which binary rule it is. -/
theorem BinaryRule.toRule_inj {rule rule' : BinaryRule} (h : rule.toRule = rule'.toRule) :
    rule = rule' := by
  rwa [← Rule.binary?_eq_some_iff, Rule.binary?_eq_some_iff.2 rfl, Option.some_inj] at h

/-- The positions of a span that is divided are those of its first part, then those of the second.
-/
theorem Span.slice_divided {input : List Symbol} {i k j : Nat} (hik : i ≤ k) (hkj : k < j) :
    (⟨i, k⟩ : Span).slice input ++ (⟨k + 1, j⟩ : Span).slice input =
      (⟨i, j⟩ : Span).slice input := by
  obtain ⟨m, rfl⟩ := Nat.exists_eq_add_of_le hik
  obtain ⟨n, rfl⟩ := Nat.exists_eq_add_of_le (hik.trans hkj.le)
  exact slice_append (Nat.lt_of_add_lt_add_left hkj)

namespace Grammar

/-- The variables of the rule yield the two parts of the positions from `first` to `last`, of which
the first part ends with position `k`. -/
def Divides (g : Grammar) (input : List Symbol) (first k last : Nat) (rule : BinaryRule) : Prop :=
  g.Yields rule.left ((⟨first, k⟩ : Span).slice input) ∧
    g.Yields rule.right ((⟨k + 1, last⟩ : Span).slice input)

/-- No rule for the symbol among the given ones divides the positions after position `k`. -/
def Undivided (g : Grammar) (input : List Symbol) (s : Symbol) (first k last : Nat)
    (rules : List Rule) : Prop :=
  ∀ rule : BinaryRule, rule.toRule ∈ rules → rule.lhs = s → ¬g.Divides input first k last rule

/-- The rule for the symbol divides the positions after position `k`. No rule of the grammar for the
symbol divides them further to the left, and no rule that stands before this one divides them at the
same place. -/
structure FirstDivision (g : Grammar) (input : List Symbol) (s : Symbol) (first last k : Nat)
    (rule : BinaryRule) : Prop where
  /-- The rule is for the symbol. -/
  lhs : rule.lhs = s
  /-- The first part is not empty. -/
  le : first ≤ k
  /-- The second part is not empty. -/
  lt : k < last
  /-- The rule divides the positions. -/
  divides : g.Divides input first k last rule
  /-- There is no division further to the left. -/
  least : ∀ k', first ≤ k' → k' < k → g.Undivided input s first k' last g.rules
  /-- The rule is one of the grammar, and the first one that divides the positions here. -/
  foremost : ∃ before after, g.rules = before ++ rule.toRule :: after ∧
    g.Undivided input s first k last before

/-- The canonical derivation of the positions from the first to the last one from a symbol, in
pre-order. A single position takes the rule for its symbol; more than one are divided by their first
division, and the derivations of the two parts follow its rule. -/
inductive Canonical (g : Grammar) (input : List Symbol) :
    Symbol → Nat → Nat → Derivation → Prop where
  /-- A single position. -/
  | single {s a : Symbol} {i : Nat} (get : input[i]? = some a) :
      Canonical g input s i i [⟨s, [a]⟩]
  /-- Two or more positions. -/
  | divided {s : Symbol} {i j k : Nat} {rule : BinaryRule} {d e : Derivation}
      (division : g.FirstDivision input s i j k rule) (left : Canonical g input rule.left i k d)
      (right : Canonical g input rule.right (k + 1) j e) :
      Canonical g input s i j (rule.toRule :: (d ++ e))

variable {g : Grammar} {input : List Symbol} {s : Symbol} {i j k k' : Nat}
  {rule rule' : BinaryRule} {d d' : Derivation}

namespace FirstDivision

/-- The rule of a first division is one of the grammar. -/
theorem mem_rules (h : g.FirstDivision input s i j k rule) : rule.toRule ∈ g.rules := by
  obtain ⟨before, after, hrules, -⟩ := h.foremost
  rw [hrules]
  exact List.mem_append_right before List.mem_cons_self

/-- Of two first divisions neither is further to the left. -/
theorem le_of_firstDivision (h : g.FirstDivision input s i j k rule)
    (h' : g.FirstDivision input s i j k' rule') : k ≤ k' := by
  refine Nat.le_of_not_lt fun hlt => ?_
  exact h.least k' h'.le hlt rule' h'.mem_rules h'.lhs h'.divides

/-- There is at most one first division. -/
theorem unique (h : g.FirstDivision input s i j k rule)
    (h' : g.FirstDivision input s i j k' rule') : k = k' ∧ rule = rule' := by
  obtain rfl := Nat.le_antisymm (h.le_of_firstDivision h') (h'.le_of_firstDivision h)
  refine ⟨rfl, BinaryRule.toRule_inj ?_⟩
  obtain ⟨before, after, hrules, hbefore⟩ := h.foremost
  obtain ⟨before', after', hrules', hbefore'⟩ := h'.foremost
  -- If the rules differed, one of them would stand before the other.
  rcases List.append_eq_append_iff.1 (hrules.symm.trans hrules') with
    ⟨between, rfl, heq⟩ | ⟨between, rfl, heq⟩
  · cases between with
    | nil => exact (List.cons.inj heq).1
    | cons first between =>
      obtain rfl := (List.cons.inj heq).1
      exact absurd h.divides (hbefore' rule (by simp) h.lhs)
  · cases between with
    | nil => exact (List.cons.inj heq).1.symm
    | cons first between =>
      obtain rfl := (List.cons.inj heq).1
      exact absurd h'.divides (hbefore rule' (by simp) h'.lhs)

end FirstDivision

namespace Canonical

/-- There is at most one canonical derivation. -/
theorem unique (h : g.Canonical input s i j d) (h' : g.Canonical input s i j d') : d = d' := by
  induction h generalizing d' with
  | single hget =>
    cases h' with
    | single hget' =>
      obtain rfl := Option.some.inj (hget.symm.trans hget')
      rfl
    | divided division _ _ => exact absurd (division.le.trans_lt division.lt) (Nat.lt_irrefl _)
  | divided division _ _ ihLeft ihRight =>
    cases h' with
    | single _ => exact absurd (division.le.trans_lt division.lt) (Nat.lt_irrefl _)
    | divided division' left' right' =>
      obtain ⟨rfl, rfl⟩ := division.unique division'
      rw [ihLeft left', ihRight right']

/-- The canonical derivation from a variable that yields the positions derives them, by rules of the
grammar. -/
theorem derives (h : g.Canonical input s i j d) (hn : g.isNormal = true)
    (hs : g.isTerminal s = false) (hy : g.Yields s ((⟨i, j⟩ : Span).slice input)) :
    g.Derives d [s] ((⟨i, j⟩ : Span).slice input) := by
  induction h with
  | @single s a i hget =>
    rw [Span.slice_single hget] at hy ⊢
    rcases (yields_iff_of_isNormal hn).1 hy with ⟨b, hm, hb⟩ | ⟨binary, -, -, u, v, huv, hu, hv⟩
    · obtain rfl := (List.cons.inj hb).1
      exact (derives_variable_iff hs).2
        ⟨_, hm, rfl, [], rfl, .ofTerminal (isTerminal_of_isNormal hn hm) .nil⟩
    · -- Neither part of a division is empty, so a single symbol has none.
      have hlen := congrArg List.length huv
      rw [List.length_append, List.length_singleton] at hlen
      have hupos := List.length_pos_iff.2 (hu.ne_nil hn)
      have hvpos := List.length_pos_iff.2 (hv.ne_nil hn)
      omega
  | @divided s i j k rule d e division _ _ ihLeft ihRight =>
    obtain ⟨hleft, hright⟩ := isVariable_of_isNormal hn division.mem_rules
    have hd := (ihLeft hleft division.divides.1).append (ihRight hright division.divides.2)
    rw [Span.slice_divided division.le division.lt] at hd
    exact (derives_variable_iff hs).2 ⟨_, division.mem_rules, division.lhs, _, rfl, hd⟩

end Canonical

end Grammar

namespace Chart

/-- Among the reasons for a symbol to derive a span, the one with the leftmost first part; of these
the one with the leftmost second part, and of these the one that was found first. -/
def chosen? (chart : Chart) (span : Span) (s : Symbol) : Option Justification :=
  (chart.justifications span s).argmin fun reason => toLex (reason.left.first, reason.right.first)

/-- A walk through a chart: the places that are still open, with the next one in front, and the
rules written down so far. -/
structure Walk where
  /-- The open places. -/
  pending : List (Symbol × Span)
  /-- The rules written down. -/
  done : Derivation

/-- Takes the next open place. If a reason is chosen for it, its rule is written down and its two
parts become open, the first part in front; if not, the rule for the symbol at its first position is
written down. The walk is over when no place is open. -/
def Walk.next? (chart : Chart) (walk : Walk) : Option Walk :=
  match walk.pending with
  | [] => none
  | (s, span) :: rest =>
    match chart.chosen? span s with
    | some reason =>
      some ⟨(reason.rule.left, reason.left) :: (reason.rule.right, reason.right) :: rest,
        walk.done ++ [reason.rule.toRule]⟩
    | none => some ⟨rest, walk.done ++ [⟨s, (chart.input[span.first]?).toList⟩]⟩

/-- One walk goes on to the other in any number of steps. -/
def Leads (chart : Chart) : Walk → Walk → Prop :=
  Relation.ReflTransGen fun walk walk' => walk.next? chart = some walk'

end Chart

namespace Recognizer

variable {g : Grammar} {r : Recognizer} {input : List Symbol} {s : Symbol} {i j k : Nat}
  {rule : BinaryRule} {reason : Justification} {d : Derivation}

/-- What is found first in a range of numbers. -/
theorem findSome?_range_eq_some_iff {α : Type} {f : Nat → Option α} {n : Nat} {a : α} :
    (List.range n).findSome? f = some a ↔ ∃ k < n, f k = some a ∧ ∀ k' < k, f k' = none := by
  rw [List.range_eq_range', List.findSome?_eq_some_iff]
  constructor
  · rintro ⟨before, k, after, hrange, hk, hbefore⟩
    obtain ⟨m, -, rfl, hrest⟩ := List.range'_eq_append_iff.1 hrange
    obtain ⟨hm, hlt, -⟩ := List.range'_eq_cons_iff.1 hrest.symm
    obtain rfl : m = k := by omega
    exact ⟨m, by omega, hk, fun k' hk' => hbefore k' (by simpa using hk')⟩
  · rintro ⟨k, hlt, hk, hbefore⟩
    have hrest : List.range' (0 + k * 1) (n - k) 1 = k :: List.range' (k + 1) (n - k - 1) 1 :=
      List.range'_eq_cons_iff.2 ⟨by omega, by omega, rfl⟩
    exact ⟨List.range' 0 k 1, k, _, List.range'_eq_append_iff.2 ⟨k, hlt.le, rfl, hrest.symm⟩, hk,
      fun k' hk' => hbefore k' (by simpa using hk')⟩

namespace Represents

/-- The first binary rule with a property is the first rule of the grammar that is binary and has
it. -/
theorem find?_binaryRules_eq_some_iff (h : r.Represents g) {p : BinaryRule → Bool} :
    r.binaryRules.find? p = some rule ↔
      p rule = true ∧ ∃ before after, g.rules = before ++ rule.toRule :: after ∧
        ∀ rule' : BinaryRule, rule'.toRule ∈ before → p rule' = false := by
  have hbinary (rule' : BinaryRule) : rule'.toRule.binary? = some rule' :=
    Rule.binary?_eq_some_iff.2 rfl
  rw [h.binaryRules_eq, List.find?_filterMap, Option.bind_eq_some_iff]
  constructor
  · rintro ⟨found, hfind, hfound⟩
    obtain rfl := Rule.binary?_eq_some_iff.1 hfound
    obtain ⟨hp, before, after, hrules, hbefore⟩ := List.find?_eq_some_iff_append.1 hfind
    rw [hbinary, Option.any_some] at hp
    refine ⟨hp, before, after, hrules, fun rule' hm => ?_⟩
    simpa [hbinary] using hbefore _ hm
  · rintro ⟨hp, before, after, hrules, hbefore⟩
    refine ⟨rule.toRule, List.find?_eq_some_iff_append.2 ⟨?_, before, after, hrules, ?_⟩, hbinary _⟩
    · rwa [hbinary, Option.any_some]
    · intro first hm
      cases hfirst : first.binary? with
      | none => rfl
      | some rule' =>
        obtain rfl := Rule.binary?_eq_some_iff.1 hfirst
        simpa using hbefore rule' hm

/-- No binary rule has a property exactly when no rule of the grammar is binary and has it. -/
theorem find?_binaryRules_eq_none_iff (h : r.Represents g) {p : BinaryRule → Bool} :
    r.binaryRules.find? p = none ↔
      ∀ rule' : BinaryRule, rule'.toRule ∈ g.rules → p rule' = false := by
  rw [List.find?_eq_none]
  simp only [h.mem_binaryRules_iff, Bool.not_eq_true]

/-- The chart holds exactly the symbols that yield a span. -/
theorem holds_iff_yields (h : r.Represents g) (hij : i ≤ j) (hj : j < input.length) :
    (r.fullChart input).holds ⟨i, j⟩ s = true ↔
      g.Yields s ((⟨i, j⟩ : Span).slice input) := by
  obtain ⟨n, rfl⟩ := Nat.exists_eq_add_of_le hij
  rw [holds_fullChart_iff, h.contains_iff_yields hj]
  simp [hj]

/-- The chart joins two parts by exactly the rules that divide the span there. -/
theorem joins_iff_divides (h : r.Represents g) (hik : i ≤ k) (hkj : k < j)
    (hj : j < input.length) :
    (r.fullChart input).diagonals.joins i k j s rule = true ↔
      rule.lhs = s ∧ g.Divides input i k j rule := by
  obtain ⟨m, rfl⟩ := Nat.exists_eq_add_of_le hik
  obtain ⟨n, rfl⟩ := Nat.exists_eq_add_of_le (hik.trans hkj.le)
  rw [Diagonals.joins_iff, h.contains_parts_iff (Nat.lt_of_add_lt_add_left hkj) hj]
  rfl

/-- The chart joins two parts by none of the given rules exactly when none of them divides the span
there. -/
theorem undivided_iff (h : r.Represents g) (hik : i ≤ k) (hkj : k < j) (hj : j < input.length)
    {rules : List Rule} :
    (∀ rule : BinaryRule, rule.toRule ∈ rules →
      (r.fullChart input).diagonals.joins i k j s rule = false) ↔
      g.Undivided input s i k j rules := by
  refine forall₂_congr fun rule _ => ?_
  rw [← Bool.not_eq_true, h.joins_iff_divides hik hkj hj, not_and]

/-- The first reason for a symbol to derive a longer span is the first division of the span. -/
theorem head?_justifications_eq_some_iff (h : r.Represents g) (hij : i < j)
    (hj : j < input.length) :
    ((r.fullChart input).justifications ⟨i, j⟩ s).head? = some reason ↔
      ∃ k, g.FirstDivision input s i j k reason.rule ∧ reason.left = ⟨i, k⟩ ∧
        reason.right = ⟨k + 1, j⟩ := by
  obtain ⟨n, rfl⟩ : ∃ n, j = i + (n + 1) := ⟨j - i - 1, by omega⟩
  rw [justifications_longer r hj, List.head?_flatMap, findSome?_range_eq_some_iff]
  simp only [List.head?_map, List.head?_filter, Option.map_eq_some_iff, Option.map_eq_none_iff]
  constructor
  · rintro ⟨m, hm, ⟨rule, hrule, rfl⟩, hbefore⟩
    have hlt : i + m < i + (n + 1) := Nat.add_lt_add_left hm i
    obtain ⟨hp, before, after, hrules, hfirst⟩ := h.find?_binaryRules_eq_some_iff.1 hrule
    obtain ⟨hlhs, hdivides⟩ := (h.joins_iff_divides (by omega) hlt hj).1 hp
    refine ⟨i + m, ⟨hlhs, by omega, hlt, hdivides, fun k' hik' hlt' => ?_, before, after, hrules,
      (h.undivided_iff (by omega) hlt hj).1 hfirst⟩, rfl, rfl⟩
    obtain ⟨m', rfl⟩ := Nat.exists_eq_add_of_le hik'
    have hnone := hbefore m' (Nat.lt_of_add_lt_add_left hlt')
    exact (h.undivided_iff hik' (hlt'.trans hlt) hj).1 (h.find?_binaryRules_eq_none_iff.1 hnone)
  · obtain ⟨rule, left, right⟩ := reason
    rintro ⟨k, division, rfl, rfl⟩
    obtain ⟨m, rfl⟩ := Nat.exists_eq_add_of_le division.le
    obtain ⟨before, after, hrules, hfirst⟩ := division.foremost
    refine ⟨m, Nat.lt_of_add_lt_add_left division.lt, ⟨rule, ?_, rfl⟩, fun m' hm' => ?_⟩
    · exact h.find?_binaryRules_eq_some_iff.2
        ⟨(h.joins_iff_divides division.le division.lt hj).2 ⟨division.lhs, division.divides⟩,
          before, after, hrules, (h.undivided_iff division.le division.lt hj).2 hfirst⟩
    · have hlt : i + m' < i + m := Nat.add_lt_add_left hm' i
      exact h.find?_binaryRules_eq_none_iff.2
        ((h.undivided_iff (by omega) (hlt.trans division.lt) hj).2
          (division.least _ (by omega) hlt))

/-- The reason that is chosen for a symbol to derive a longer span is the first one. -/
theorem chosen?_eq_head? (h : r.Represents g) (hij : i < j) (hj : j < input.length) :
    (r.fullChart input).chosen? ⟨i, j⟩ s =
      ((r.fullChart input).justifications ⟨i, j⟩ s).head? := by
  rw [Chart.chosen?]
  cases hhead : ((r.fullChart input).justifications ⟨i, j⟩ s).head? with
  | none => rw [List.head?_eq_none_iff.1 hhead, List.argmin_nil]
  | some reason =>
    obtain ⟨k, division, hleft, hright⟩ := (h.head?_justifications_eq_some_iff hij hj).1 hhead
    obtain ⟨rest, hlist⟩ := List.head?_eq_some_iff.1 hhead
    refine List.argmin_eq_some_iff.2 ⟨List.mem_of_head? hhead, fun reason' hm => ?_, ?_⟩
    · -- All first parts begin with the span, so the place of the division decides.
      obtain ⟨hmem, hlhs, ⟨k', hik, hkj, hleft', hright'⟩, hholds, hholds'⟩ :=
        (h.mem_justifications_iff hij).1 hm
      rw [Prod.Lex.toLex_le_toLex, hleft, hright, hleft', hright']
      refine .inr ⟨rfl, Nat.succ_le_succ (Nat.le_of_not_lt fun hlt => ?_)⟩
      rw [hleft', h.holds_iff_yields hik (hkj.trans hj)] at hholds
      rw [hright', h.holds_iff_yields hkj hj] at hholds'
      exact division.least k' hik hlt reason'.rule hmem hlhs ⟨hholds, hholds'⟩
    · intro reason' _ _
      rw [hlist, List.idxOf_cons_self]
      exact Nat.zero_le _

/-- A symbol that yields a span has a canonical derivation of it. -/
theorem exists_canonical (h : r.Represents g) (hij : i ≤ j) (hj : j < input.length)
    (hy : g.Yields s ((⟨i, j⟩ : Span).slice input)) : ∃ d, g.Canonical input s i j d := by
  -- Both parts of a division are shorter than the span.
  induction hn : j - i using Nat.strongRecOn generalizing i j s with
  | ind n ih =>
    rcases hij.eq_or_lt with rfl | hlt
    · exact ⟨_, .single (List.getElem?_eq_getElem hj)⟩
    · have hne : (r.fullChart input).justifications ⟨i, j⟩ s ≠ [] :=
        (holds_iff_justifications_ne_nil r hlt).1 ((h.holds_iff_yields hij hj).2 hy)
      obtain ⟨reason, rest, hlist⟩ := List.exists_cons_of_ne_nil hne
      obtain ⟨k, division, -, -⟩ :=
        (h.head?_justifications_eq_some_iff hlt hj).1 (List.head?_eq_some_iff.2 ⟨rest, hlist⟩)
      have hik := division.le
      have hkj := division.lt
      obtain ⟨left, hleft⟩ :=
        ih (k - i) (by omega) hik (hkj.trans hj) division.divides.1 rfl
      obtain ⟨right, hright⟩ := ih (j - (k + 1)) (by omega) hkj hj division.divides.2 rfl
      exact ⟨_, .divided division hleft hright⟩

/-- What is read off the chart is the canonical derivation. -/
theorem traceFrom_of_canonical (h : r.Represents g) (hd : g.Canonical input s i j d)
    (hj : j < input.length) {fuel : Nat} (hfuel : j - i < fuel) :
    (r.fullChart input).traceFrom fuel s ⟨i, j⟩ = d := by
  induction hd generalizing fuel with
  | @single s a i hget =>
    obtain ⟨fuel, rfl⟩ := Nat.exists_eq_succ_of_ne_zero (Nat.ne_zero_of_lt hfuel)
    have hinput : (r.fullChart input).input[i]? = some a := hget
    rw [Chart.traceFrom, justifications_fullChart_single, List.head?_nil]
    dsimp only
    rw [hinput]
    rfl
  | @divided s i j k rule d e division _ _ ihLeft ihRight =>
    obtain ⟨fuel, rfl⟩ := Nat.exists_eq_succ_of_ne_zero (Nat.ne_zero_of_lt hfuel)
    have hik := division.le
    have hkj := division.lt
    have hhead : ((r.fullChart input).justifications ⟨i, j⟩ s).head? =
        some ⟨rule, ⟨i, k⟩, ⟨k + 1, j⟩⟩ :=
      (h.head?_justifications_eq_some_iff (hik.trans_lt hkj) hj).2 ⟨k, division, rfl, rfl⟩
    rw [Chart.traceFrom, hhead]
    dsimp only
    rw [ihLeft (hkj.trans hj) (by omega), ihRight hj (by omega)]

/-- A walk that comes to a place writes down the canonical derivation there and goes on to the place
behind it. -/
theorem leads_of_canonical (h : r.Represents g) (hd : g.Canonical input s i j d)
    (hj : j < input.length) (rest : List (Symbol × Span)) (done : Derivation) :
    (r.fullChart input).Leads ⟨(s, ⟨i, j⟩) :: rest, done⟩ ⟨rest, done ++ d⟩ := by
  induction hd generalizing rest done with
  | @single s a i hget =>
    have hinput : (r.fullChart input).input[i]? = some a := hget
    refine .single ?_
    rw [Chart.Walk.next?]
    dsimp only
    rw [Chart.chosen?, justifications_fullChart_single, List.argmin_nil]
    dsimp only
    rw [hinput]
    rfl
  | @divided s i j k rule d e division _ _ ihLeft ihRight =>
    have hlt := division.le.trans_lt division.lt
    have hchosen : (r.fullChart input).chosen? ⟨i, j⟩ s = some ⟨rule, ⟨i, k⟩, ⟨k + 1, j⟩⟩ := by
      rw [h.chosen?_eq_head? hlt hj]
      exact (h.head?_justifications_eq_some_iff hlt hj).2 ⟨k, division, rfl, rfl⟩
    have hstep : Chart.Walk.next? (r.fullChart input) ⟨(s, ⟨i, j⟩) :: rest, done⟩ =
        some ⟨(rule.left, ⟨i, k⟩) :: (rule.right, ⟨k + 1, j⟩) :: rest, done ++ [rule.toRule]⟩ := by
      rw [Chart.Walk.next?]
      dsimp only
      rw [hchosen]
    have hleft := ihLeft (division.lt.trans hj) ((rule.right, ⟨k + 1, j⟩) :: rest)
      (done ++ [rule.toRule])
    have hright := ihRight hj rest (done ++ [rule.toRule] ++ d)
    have hdone : done ++ [rule.toRule] ++ d ++ e = done ++ rule.toRule :: (d ++ e) := by simp
    rw [hdone] at hright
    exact .head hstep (hleft.trans hright)

/-- The derivation read off the chart of an input that is accepted is the canonical one of the whole
input from the start symbol, and a walk that begins there ends with it. -/
theorem exists_trace (h : r.Represents g) (hne : input ≠ [])
    (hacc : (r.chart input).accepted = true) :
    ∃ d, (r.chart input).trace = some d ∧ g.Canonical input r.start 0 (input.length - 1) d ∧
      (r.chart input).Leads ⟨[(r.start, (r.chart input).whole)], []⟩ ⟨[], d⟩ := by
  have hy : g.Yields r.start input := (h.accepted_iff_yields hne).1 hacc
  have hfull : r.chart input = r.fullChart input :=
    chart_eq_fullChart fun a ha => h.derivers_ne_nil hy ha
  have hlast : input.length - 1 < input.length :=
    Nat.sub_lt (List.length_pos_iff.2 hne) Nat.one_pos
  have hslice : (⟨0, input.length - 1⟩ : Span).slice input = input := by
    simpa using slice_whole hne
  rw [← hslice] at hy
  obtain ⟨d, hd⟩ := h.exists_canonical (Nat.zero_le _) hlast hy
  refine ⟨d, ?_, hd, ?_⟩
  · rw [Chart.trace, if_pos hacc, hfull]
    exact congrArg some (h.traceFrom_of_canonical hd hlast hlast)
  · rw [hfull]
    exact h.leads_of_canonical hd hlast [] []

end Represents

/-- A recognizer fills the chart of every input that is not empty. If the start symbol is a variable
and the input is accepted, a derivation is read off the chart, which is the canonical one of the
whole input from the start symbol and the only one of that kind. A walk through the chart that
begins with the start symbol and the whole input ends with it. It is a leftmost derivation of the
input by rules of the grammar. -/
theorem trace_canonical {start : Symbol} (hr : ofGrammar g = .ok r) (hstart : g.start = some start)
    (hv : g.isTerminal start = false) (hne : input ≠ []) :
    ∃ chart, (r.recognize input).outcome = .ok chart ∧
      (chart.accepted = true → ∃ d, chart.trace = some d ∧
        g.Canonical input start 0 (input.length - 1) d ∧
        (∀ d', g.Canonical input start 0 (input.length - 1) d' → d' = d) ∧
        chart.Leads ⟨[(start, chart.whole)], []⟩ ⟨[], d⟩ ∧ g.LeftmostDerivation d start input) := by
  have h := ofGrammar_eq_ok_iff.1 hr
  obtain rfl := Option.some.inj (hstart.symm.trans h.start)
  refine ⟨r.chart input, r.outcome_recognize hne, fun hacc => ?_⟩
  obtain ⟨d, htrace, hd, hwalk⟩ := h.exists_trace hne hacc
  have hy : g.Yields r.start input := (h.accepted_iff_yields hne).1 hacc
  have hslice : (⟨0, input.length - 1⟩ : Span).slice input = input := by
    simpa using Represents.slice_whole hne
  rw [← hslice] at hy
  have hderives := hd.derives h.isNormal hv hy
  rw [hslice] at hderives
  exact ⟨d, htrace, hd, fun d' hd' => hd'.unique hd, hwalk,
    Grammar.leftmostDerivation_iff.2 hderives⟩

/-- In the canonical derivation of `aaa`, the whole input is divided after its first position, where
only the second rule divides it, and the last two positions by the first rule. -/
theorem trace_canonical_leaning :
    ∃ r chart d, ofGrammar leaning = .ok r ∧ leaning.isTerminal ⟨0⟩ = false ∧
      (r.recognize [⟨2⟩, ⟨2⟩, ⟨2⟩]).outcome = .ok chart ∧ chart.accepted = true ∧
      d = [⟨⟨0⟩, [⟨0⟩, ⟨0⟩]⟩, ⟨⟨0⟩, [⟨2⟩]⟩, ⟨⟨0⟩, [⟨0⟩, ⟨1⟩]⟩, ⟨⟨0⟩, [⟨2⟩]⟩, ⟨⟨1⟩, [⟨2⟩]⟩] ∧
      chart.trace = some d ∧ leaning.Canonical [⟨2⟩, ⟨2⟩, ⟨2⟩] ⟨0⟩ 0 2 d ∧
      chart.Leads ⟨[(⟨0⟩, ⟨0, 2⟩)], []⟩ ⟨[], d⟩ ∧
      leaning.LeftmostDerivation d ⟨0⟩ [⟨2⟩, ⟨2⟩, ⟨2⟩] := by
  have hv : leaning.isTerminal ⟨0⟩ = false := by decide +kernel
  obtain ⟨chart, hchart, htrace⟩ :=
    trace_canonical ofGrammar_leaning rfl hv (List.cons_ne_nil ⟨2⟩ [⟨2⟩, ⟨2⟩])
  obtain rfl := Except.ok.inj ((outcome_recognize _ (List.cons_ne_nil _ _)).symm.trans hchart)
  obtain ⟨d, hd, hcanonical, -, hwalk, hleftmost⟩ := htrace (by decide +kernel)
  have hrules : d = [⟨⟨0⟩, [⟨0⟩, ⟨0⟩]⟩, ⟨⟨0⟩, [⟨2⟩]⟩, ⟨⟨0⟩, [⟨0⟩, ⟨1⟩]⟩, ⟨⟨0⟩, [⟨2⟩]⟩,
      ⟨⟨1⟩, [⟨2⟩]⟩] :=
    Option.some.inj (hd.symm.trans (by decide +kernel))
  exact ⟨_, _, d, ofGrammar_leaning, hv, hchart, by decide +kernel, hrules, hd, hcanonical, hwalk,
    hleftmost⟩

end Recognizer

end ContextFree
