import ContextFree.Proofs.Chart.Recognition
import ContextFree.Proofs.Normal.Fixpoint
import ContextFree.Proofs.Normal.Normalized
import Mathlib.Data.List.Basic

/-!
# The short way and the long way

A grammar in normal form is taken as it is, with its useless rules; sent through the stages instead,
it loses these and nothing else. Both ways lead to the same answers. A variable that is reachable
from the start symbol by productive rules yields the same words with and without the useless rules
(`Grammar.yields_usefulPart_iff`), so it has the same reasons in both charts, in the same order
(`Recognizer.Represents.justifications_usefulPart`): a rule that is a reason yields a part of the
input and is therefore useful. Following first reasons from the start symbol never leaves the
reachable variables, so the same derivation is read off both charts
(`Recognizer.Represents.traceFrom_usefulPart`).
-/

namespace ContextFree

namespace Grammar

variable {g : Grammar} {start s t : Symbol} {rule : Rule} {word : List Symbol}

/-- Useful rules are rules of the grammar. -/
theorem mem_of_mem_usefulPart (hr : rule ∈ (g.usefulPart start).rules) : rule ∈ g.rules :=
  (List.mem_filter.1 (List.mem_filter.1 hr).1).1

/-- The useful rules are in the order in which the grammar has them. -/
theorem rules_usefulPart (g : Grammar) (start : Symbol) :
    (g.usefulPart start).rules = g.rules.filter (g.usefulPart start).contains := by
  obtain ⟨keep, hkeep⟩ : ∃ keep, (g.usefulPart start).rules = g.rules.filter keep :=
    ⟨_, List.filter_filter⟩
  calc (g.usefulPart start).rules
      = g.rules.filter keep := hkeep
    _ = g.rules.filter (g.usefulPart start).contains := by
      refine List.filter_congr fun rule hr => ?_
      rw [Bool.eq_iff_iff, contains, List.contains_iff_mem, hkeep, List.mem_filter]
      exact ⟨fun h => ⟨hr, h⟩, fun h => h.2⟩

/-- A rule for a reachable variable is useful if its right-hand side spells some word. -/
theorem mem_usefulPart_of_spells (hr : rule ∈ g.rules)
    (hl : rule.lhs ∈ g.productivePart.reachableFrom start) (h : g.Spells rule.rhs word) :
    rule ∈ (g.usefulPart start).rules :=
  List.mem_filter.2 ⟨mem_productivePart_of_spells hr h, SymbolSet.contains_iff.2 hl⟩

/-- Useful rules lead to reachable symbols only. -/
theorem mem_reachableFrom_of_mem_usefulPart (hg : g.Valid) (hstart : g.knows start = true)
    (hr : rule ∈ (g.usefulPart start).rules) (ht : t ∈ rule.rhs) :
    t ∈ g.productivePart.reachableFrom start := by
  obtain ⟨hproductive, hl⟩ := List.mem_filter.1 hr
  have hvalid := productivePart_valid hg
  have hlhs := (mem_reachableFrom_iff hvalid hstart).1 (SymbolSet.contains_iff.1 hl)
  exact (mem_reachableFrom_iff hvalid hstart).2 (hlhs.tail ⟨rule, hproductive, rfl, ht⟩)

/-- The start symbol is reachable. -/
theorem start_mem_reachableFrom (hg : g.Valid) (hstart : g.knows start = true) :
    start ∈ g.productivePart.reachableFrom start :=
  (mem_reachableFrom_iff (productivePart_valid hg) hstart).2 .refl

/-- Reachable variables yield what they do without the useless rules. -/
theorem yields_usefulPart_iff (hg : g.Valid) (hstart : g.knows start = true)
    (hs : s ∈ g.productivePart.reachableFrom start) :
    (g.usefulPart start).Yields s word ↔ g.Yields s word := by
  constructor
  · rintro ⟨rule, hr, rfl, h⟩
    exact ⟨rule, mem_of_mem_usefulPart hr, rfl, h.mono rfl fun _ => mem_of_mem_usefulPart⟩
  · rintro ⟨rule, hr, rfl, h⟩
    have hm := mem_usefulPart_of_spells hr hs h
    have hrhs := fun t => mem_reachableFrom_of_mem_usefulPart (t := t) hg hstart hm
    exact ⟨rule, hm, rfl, h.productivePart.reachablePart (productivePart_valid hg) hstart hrhs⟩

end Grammar

namespace Recognizer

variable {r r' : Recognizer} {g : Grammar} {start s : Symbol} {input : List Symbol} {i d : Nat}

namespace Represents

/-- The recognizer for the useful part has the useful ones of the binary rules, in order. -/
theorem binaryRules_usefulPart (h : r.Represents g) (h' : r'.Represents (g.usefulPart start)) :
    r'.binaryRules =
      r.binaryRules.filter fun rule => (g.usefulPart start).contains rule.toRule := by
  have hform : (g.usefulPart start).normalRule? = g.normalRule? := rfl
  unfold binaryRules
  rw [h.rules, h'.rules, hform, List.filterMap_filterMap, List.filterMap_filterMap,
    List.filter_filterMap, Grammar.rules_usefulPart, List.filterMap_filter]
  congr 1
  funext rule
  -- A binary rule is found for one rule only, so both tests ask about the same rule.
  cases hnormal : g.normalRule? rule with
  | none => simp
  | some form =>
    have hrule := Grammar.toRule_of_normalRule? hnormal
    cases form with
    | lexical lhs a => simp
    | binary binary =>
      obtain rfl : binary.toRule = rule := hrule
      simp [Option.filter]

section Useful

variable (h : r.Represents g) (h' : r'.Represents (g.usefulPart start)) (hg : g.Valid)
  (hstart : g.knows start = true)

include h h' hg hstart

/-- A binary rule for a reachable variable is a reason with all rules of the grammar exactly when it
is useful and a reason with the useful ones. -/
theorem contains_usefulPart_iff {rule : BinaryRule} (hr : rule.toRule ∈ g.rules)
    (hl : rule.lhs ∈ g.productivePart.reachableFrom start) {k : Nat} (hk : k < d)
    (hi : i + d < input.length) :
    (((r'.fullChart input).diagonals.cell ⟨i, i + k⟩).contains rule.left = true ∧
        ((r'.fullChart input).diagonals.cell ⟨i + k + 1, i + d⟩).contains rule.right = true) ∧
        rule.toRule ∈ (g.usefulPart start).rules ↔
      ((r.fullChart input).diagonals.cell ⟨i, i + k⟩).contains rule.left = true ∧
        ((r.fullChart input).diagonals.cell ⟨i + k + 1, i + d⟩).contains rule.right = true := by
  rw [h.contains_parts_iff hk hi, h'.contains_parts_iff hk hi]
  -- Both variables of a useful rule are reachable, so they yield the same with fewer rules.
  have hsame : rule.toRule ∈ (g.usefulPart start).rules → ∀ t ∈ [rule.left, rule.right],
      ∀ word, (g.usefulPart start).Yields t word ↔ g.Yields t word := fun hm t ht word =>
    Grammar.yields_usefulPart_iff hg hstart
      (Grammar.mem_reachableFrom_of_mem_usefulPart hg hstart hm ht)
  constructor
  · rintro ⟨⟨hleft, hright⟩, hm⟩
    exact ⟨(hsame hm _ (by simp) _).1 hleft, (hsame hm _ (by simp) _).1 hright⟩
  · rintro ⟨hleft, hright⟩
    obtain ⟨hvl, hvr⟩ := Grammar.isVariable_of_isNormal h.isNormal hr
    have hspells : g.Spells rule.toRule.rhs _ :=
      ((Grammar.yields_iff_spells hvl).1 hleft).append ((Grammar.yields_iff_spells hvr).1 hright)
    have hm := Grammar.mem_usefulPart_of_spells hr hl hspells
    exact ⟨⟨(hsame hm _ (by simp) _).2 hleft, (hsame hm _ (by simp) _).2 hright⟩, hm⟩

/-- A reachable variable has the same reasons, in the same order, with and without the useless
rules. -/
theorem justifications_usefulPart (hs : s ∈ g.productivePart.reachableFrom start)
    (hi : i + d < input.length) :
    (r'.fullChart input).justifications ⟨i, i + d⟩ s =
      (r.fullChart input).justifications ⟨i, i + d⟩ s := by
  rw [justifications_eq r hi, justifications_eq r' hi]
  cases d with
  | zero =>
    rw [Nat.add_zero] at hi ⊢
    rw [justifications_single r hi, justifications_single r' hi]
  | succ d =>
    rw [cell_longer r hi, cell_longer r' hi]
    unfold Cell.justifications Cell.ofReasons reasons
    dsimp only
    rw [List.filter_flatMap, List.filter_flatMap]
    refine List.flatMap_congr fun k hk => ?_
    rw [List.mem_range] at hk
    unfold reasonsAt
    dsimp only
    rw [List.filter_map, List.filter_map, h.binaryRules_usefulPart h', List.filter_filter,
      List.filter_filter, List.filter_filter]
    congr 1
    -- The same rules pass both tests, so the same reasons are left in the same order.
    refine List.filter_congr fun rule hrule => ?_
    rw [Bool.eq_iff_iff]
    simp only [Function.comp_apply, Bool.and_eq_true, decide_eq_true_eq, Grammar.contains,
      List.contains_iff_mem, and_assoc]
    refine and_congr_right fun hlhs => ?_
    rw [← and_assoc]
    have hr := h.mem_binaryRules_iff.1 hrule
    exact h.contains_usefulPart_iff h' hg hstart hr (hlhs ▸ hs) hk hi

/-- The same derivation is read off for a reachable variable with and without the useless rules. -/
theorem traceFrom_usefulPart (hs : s ∈ g.productivePart.reachableFrom start) (fuel : Nat)
    (hi : i + d < input.length) :
    (r'.fullChart input).traceFrom fuel s ⟨i, i + d⟩ =
      (r.fullChart input).traceFrom fuel s ⟨i, i + d⟩ := by
  induction fuel generalizing d i s with
  | zero => rfl
  | succ fuel ih =>
    have hreasons := h.justifications_usefulPart h' hg hstart hs hi
    rw [Chart.traceFrom, Chart.traceFrom, hreasons]
    cases hhead : ((r.fullChart input).justifications ⟨i, i + d⟩ s).head? with
    | none => rfl
    | some reason =>
      have hreason : reason ∈ (r'.fullChart input).justifications ⟨i, i + d⟩ s :=
        hreasons ▸ List.mem_of_head? hhead
      rw [justifications_eq r' hi] at hreason
      cases d with
      | zero =>
        rw [Nat.add_zero] at hi hreason
        rw [justifications_single r' hi] at hreason
        exact absurd hreason List.not_mem_nil
      | succ d =>
        rw [cell_longer r' hi] at hreason
        obtain ⟨hrule, k, hk, hleft, hright, -, -⟩ :=
          mem_reasons_iff.1 (List.mem_filter.1 hreason).1
        -- The reason has a useful rule, so both of its variables are reachable again.
        have hreach : ∀ t ∈ [reason.rule.left, reason.rule.right],
            t ∈ g.productivePart.reachableFrom start := fun t ht =>
          Grammar.mem_reachableFrom_of_mem_usefulPart hg hstart
            (h'.mem_binaryRules_iff.1 hrule) ht
        have hspan : i + (d + 1) = i + k + 1 + (d - k) := by omega
        dsimp only
        rw [hleft, hright, ih (hreach _ (by simp)) (by omega), hspan,
          ih (hreach _ (by simp)) (by omega)]

/-- An input is accepted with the useful rules exactly when it is with all of them, and by the same
derivation. -/
theorem trace_usefulPart (hs : g.start = some start) (hne : input ≠ []) :
    (r'.chart input).accepted = (r.chart input).accepted ∧
      (r'.chart input).trace = (r.chart input).trace := by
  have hreach := Grammar.start_mem_reachableFrom hg hstart
  have hr : r.start = start := Option.some.inj (h.start.symm.trans hs)
  have hr' : r'.start = start := Option.some.inj (h'.start.symm.trans hs)
  have haccepted : (r'.chart input).accepted = (r.chart input).accepted := by
    rw [Bool.eq_iff_iff, h.accepted_iff_yields hne, h'.accepted_iff_yields hne, hr, hr',
      Grammar.yields_usefulPart_iff hg hstart hreach]
  refine ⟨haccepted, ?_⟩
  unfold Chart.trace
  rw [haccepted]
  split
  · next hacc =>
    -- Only charts that are filled accept, and both are read from the start symbol on.
    rw [chart_eq_fullChart (derivers_ne_nil_of_accepted hacc),
      chart_eq_fullChart (derivers_ne_nil_of_accepted (haccepted.trans hacc))]
    have hpos := List.length_pos_iff.2 hne
    have hi : 0 + (input.length - 1) < input.length := by omega
    have htrace := h.traceFrom_usefulPart h' hg hstart hreach input.length hi
    rw [Nat.zero_add] at htrace
    refine congrArg some ?_
    show (r'.fullChart input).traceFrom input.length r'.start ⟨0, input.length - 1⟩ =
      (r.fullChart input).traceFrom input.length r.start ⟨0, input.length - 1⟩
    rw [hr, hr', htrace]
  · rfl

end Useful

end Represents

end Recognizer

namespace Grammar

variable {g : Grammar} {start s : Symbol} {rule : Rule} {useful : Stage Unit}
  {normal : Stage SplitMap}

/-- Removing the useless rules of a valid grammar succeeds and leaves its useful part. -/
theorem exists_removeUseless (hg : g.Valid) (hs : g.start = some start) :
    ∃ useful, g.removeUseless = .ok useful ∧ useful.grammar = g.usefulPart start := by
  unfold removeUseless
  rw [validStart_eq_ok_iff.2 ⟨hg, hs⟩]
  exact ⟨_, rfl, rfl⟩

theorem grammar_removeUseless (hg : g.Valid) (hs : g.start = some start)
    (h : g.removeUseless = .ok useful) : useful.grammar = g.usefulPart start := by
  obtain ⟨useful', huseful, hgrammar⟩ := exists_removeUseless hg hs
  rwa [← Except.ok.inj (h.symm.trans huseful)] at hgrammar

/-- Every symbol on the right-hand side of a useful rule derives some word by useful rules. -/
theorem mem_productive_usefulPart (hg : g.Valid) (hstart : g.knows start = true)
    (hr : rule ∈ (g.usefulPart start).rules) (ht : s ∈ rule.rhs) :
    s ∈ (g.usefulPart start).productive := by
  obtain ⟨word, hword⟩ :=
    exists_spells_of_mem_productivePart hg.isTerminal_lhs (List.mem_filter.1 hr).1 s ht
  have hreach := mem_reachableFrom_of_mem_usefulPart hg hstart hr ht
  have hspells := hword.productivePart.reachablePart (productivePart_valid hg) hstart
    fun u hu => List.mem_singleton.1 hu ▸ hreach
  exact hspells.mem_productive s (by simp)

/-- A symbol without rules has no useful ones. -/
theorem isEmpty_rulesFor_usefulPart (h : (g.rulesFor s).isEmpty = true) :
    ((g.usefulPart start).rulesFor s).isEmpty = true := by
  have hsub : ((g.usefulPart start).rulesFor s).Sublist (g.rulesFor s) := by
    unfold rulesFor
    rw [rules_usefulPart]
    exact List.filter_sublist.filter _
  rw [List.isEmpty_iff.1 h] at hsub
  exact List.isEmpty_iff.2 (List.sublist_nil.1 hsub)

/-- The stages after the first leave the useful part of a grammar in normal form as it is. -/
theorem stages_usefulPart (hw : g.WellFormed) (hg : g.Valid) (hn : g.isNormal = true)
    (hstart : g.knows start = true) :
    (g.nullingFreePart start = g.usefulPart start ∧
        (g.usefulPart start).eliminateNulling.record = ∅) ∧
      (g.unitFreePart start = g.usefulPart start ∧
        (g.nullingFreePart start).eliminateUnits.record = ∅) ∧
      (g.usefulPart start).rules.Nodup ∧ (g.usefulPart start).isNormal = true := by
  have hnodup : (g.usefulPart start).rules.Nodup := by
    rw [rules_usefulPart]
    exact hw.nodup.sublist List.filter_sublist
  have hnormal : (g.usefulPart start).isNormal = true :=
    List.all_eq_true.2 fun rule hr => List.all_eq_true.1 hn rule (mem_of_mem_usefulPart hr)
  have hnulling := eliminateNulling_eq_self hnodup (rhs_ne_nil_of_isNormal hnormal)
    fun rule hr s hs => mem_productive_usefulPart hg hstart hr hs
  have hunits := eliminateUnits_eq_self hnodup (isUnitRule_of_isNormal hnormal)
  have hfree : g.nullingFreePart start = g.usefulPart start := hnulling.1
  refine ⟨hnulling, ?_, hnodup, hnormal⟩
  unfold unitFreePart
  rw [hfree]
  exact hunits

/-- A grammar in normal form that is built is normalized as it is, and this agrees with sending it
through the stages where these succeed. They leave exactly the useful rules, in order, and record
nothing but that each of these is split into itself. The recognizers for both grammars accept the
same inputs, with the same derivations read off their charts. -/
theorem shortCircuit_agrees_with_stages (hb : g.Built) (hv : g.validate = .ok ())
    (hn : g.isNormal = true) (hu : g.removeUseless = .ok useful)
    (hc : useful.grammar.eliminateNulling.grammar.eliminateUnits.grammar.toNormalForm =
      .ok normal) :
    g.normalize.outcome = .ok ⟨g, .empty, true⟩ ∧
    normal.grammar.rules = useful.grammar.rules ∧
    useful.grammar.eliminateNulling.record.isEmpty = true ∧
    useful.grammar.eliminateNulling.grammar.eliminateUnits.record.isEmpty = true ∧
    (∀ rule, normal.record.get? rule =
      if rule ∈ useful.grammar.rules then some [rule] else none) ∧
    normal.record.isIdentity = true ∧
    ∃ r r', Recognizer.ofGrammar g = .ok r ∧ Recognizer.ofGrammar normal.grammar = .ok r' ∧
      ∀ input, input ≠ [] → ∃ chart chart', (r.recognize input).outcome = .ok chart ∧
        (r'.recognize input).outcome = .ok chart' ∧
        chart.accepted = chart'.accepted ∧ chart.trace = chart'.trace := by
  have hg := validate_eq_ok_iff.1 hv
  obtain ⟨start, hs, hstart, -⟩ := hg.start
  obtain ⟨⟨hnullingFree, hnulling⟩, ⟨hunitFree, hunits⟩, hnodup, hnormal⟩ :=
    stages_usefulPart hb.wellFormed hg hn hstart
  rw [grammar_removeUseless hg hs hu] at hc ⊢
  have hconv : (g.unitFreePart start).toNormalForm = .ok normal := hc
  rw [toNormalForm_unitFreePart hg hs, hunitFree] at hconv
  split at hconv
  · exact absurd hconv (by simp)
  · next hleft =>
    obtain rfl := Except.ok.inj hconv
    obtain ⟨hself, -, hget⟩ := binarize_eq_self hnodup hnormal
    refine ⟨?_, ?_, ?_, ?_, hget, ?_, ?_⟩
    · have hrules : ¬(g.rulesFor start).isEmpty = true := fun hempty =>
        hleft (isEmpty_rulesFor_usefulPart hempty)
      rw [outcome_normalize (validStart_eq_ok_iff.2 ⟨hg, hs⟩), if_pos hn, if_neg hrules]
    · rw [hself]
    · rw [hnulling]
      rfl
    · exact (congrArg _ hunits).trans rfl
    · exact isIdentity_binarize hnodup hnormal
    · rw [hself]
      have h : (⟨start, _⟩ : Recognizer).Represents g := ⟨hs, hn, rfl⟩
      have h' : (⟨start, _⟩ : Recognizer).Represents (g.usefulPart start) := ⟨hs, hnormal, rfl⟩
      refine ⟨_, _, Recognizer.ofGrammar_eq_ok_iff.2 h, Recognizer.ofGrammar_eq_ok_iff.2 h',
        fun input hne => ?_⟩
      obtain ⟨haccepted, htrace⟩ := h.trace_usefulPart h' hg hstart hs hne
      exact ⟨_, _, Recognizer.outcome_recognize _ hne, Recognizer.outcome_recognize _ hne,
        haccepted.symm, htrace.symm⟩

/-- The grammar with the rules `S → U S`, `S → S S`, `S → a`, `U → U U`, `V → S S` and `V → b`. The
variable `U` derives no word, and `V` is not reachable, so only the rules `S → S S` and `S → a` are
useful. -/
def cluttered : Grammar :=
  Grammar.empty
    |>.addVariable (some "S")
    |>.addVariable (some "U")
    |>.addVariable (some "V")
    |>.addTerminal "a"
    |>.addTerminal "b"
    |>.setStart ⟨0⟩
    |>.addRule ⟨⟨0⟩, [⟨1⟩, ⟨0⟩]⟩
    |>.addRule ⟨⟨0⟩, [⟨0⟩, ⟨0⟩]⟩
    |>.addRule ⟨⟨0⟩, [⟨3⟩]⟩
    |>.addRule ⟨⟨1⟩, [⟨1⟩, ⟨1⟩]⟩
    |>.addRule ⟨⟨2⟩, [⟨0⟩, ⟨0⟩]⟩
    |>.addRule ⟨⟨2⟩, [⟨4⟩]⟩

theorem cluttered_built : cluttered.Built :=
  .addRule _ (.addRule _ (.addRule _ (.addRule _ (.addRule _ (.addRule _ (.setStart _
    (.addTerminal _ (.addTerminal _ (.addVariable _ (.addVariable _ (.addVariable _
      .empty)))))))))))

/-- Of six rules the stages leave two, and both grammars have the same derivation of `aaa`. -/
theorem shortCircuit_agrees_with_stages_cluttered :
    ∃ useful normal, cluttered.removeUseless = .ok useful ∧
      useful.grammar.eliminateNulling.grammar.eliminateUnits.grammar.toNormalForm = .ok normal ∧
      normal.grammar.rules = [⟨⟨0⟩, [⟨0⟩, ⟨0⟩]⟩, ⟨⟨0⟩, [⟨3⟩]⟩] ∧
      ∃ r r' chart chart', Recognizer.ofGrammar cluttered = .ok r ∧
        Recognizer.ofGrammar normal.grammar = .ok r' ∧
        (r.recognize [⟨3⟩, ⟨3⟩, ⟨3⟩]).outcome = .ok chart ∧
        (r'.recognize [⟨3⟩, ⟨3⟩, ⟨3⟩]).outcome = .ok chart' ∧
        chart.accepted = true ∧ chart'.accepted = true ∧
        chart.trace = some [⟨⟨0⟩, [⟨0⟩, ⟨0⟩]⟩, ⟨⟨0⟩, [⟨3⟩]⟩, ⟨⟨0⟩, [⟨0⟩, ⟨0⟩]⟩, ⟨⟨0⟩, [⟨3⟩]⟩,
          ⟨⟨0⟩, [⟨3⟩]⟩] ∧
        chart.trace = chart'.trace := by
  have hstages : cluttered.removeUseless.toOption.any (fun useful =>
      decide (useful.grammar.rules = [⟨⟨0⟩, [⟨0⟩, ⟨0⟩]⟩, ⟨⟨0⟩, [⟨3⟩]⟩]) &&
        (useful.grammar.eliminateNulling.grammar.eliminateUnits.grammar.toNormalForm).toOption.any
          fun _ => true) = true := by
    decide +kernel
  obtain ⟨useful, hu, hrest⟩ := Run.exists_eq_ok_of_any hstages
  obtain ⟨hrules, hconverts⟩ := Bool.and_eq_true_iff.1 hrest
  obtain ⟨normal, hc, -⟩ := Run.exists_eq_ok_of_any hconverts
  obtain ⟨-, hnormal, -, -, -, -, r, r', hr, hr', hinputs⟩ :=
    shortCircuit_agrees_with_stages cluttered_built (by decide +kernel) (by decide +kernel) hu hc
  obtain ⟨chart, chart', hchart, hchart', haccepted, htrace⟩ :=
    hinputs [⟨3⟩, ⟨3⟩, ⟨3⟩] (List.cons_ne_nil _ _)
  obtain ⟨given, hgiven, hyes, hread⟩ : ∃ r, Recognizer.ofGrammar cluttered = .ok r ∧
      (r.chart [⟨3⟩, ⟨3⟩, ⟨3⟩]).accepted = true ∧
      (r.chart [⟨3⟩, ⟨3⟩, ⟨3⟩]).trace = some [⟨⟨0⟩, [⟨0⟩, ⟨0⟩]⟩, ⟨⟨0⟩, [⟨3⟩]⟩,
        ⟨⟨0⟩, [⟨0⟩, ⟨0⟩]⟩, ⟨⟨0⟩, [⟨3⟩]⟩, ⟨⟨0⟩, [⟨3⟩]⟩] :=
    ⟨_, rfl, by decide +kernel, by decide +kernel⟩
  obtain rfl := Except.ok.inj (hgiven.symm.trans hr)
  obtain rfl := Except.ok.inj
    ((Recognizer.outcome_recognize given (List.cons_ne_nil _ _)).symm.trans hchart)
  exact ⟨useful, normal, hu, hc, hnormal.trans (of_decide_eq_true hrules), given, r', _, chart', hr,
    hr', hchart, hchart', hyes, haccepted.symm.trans hyes, hread, htrace⟩

end Grammar

end ContextFree
