import ContextFree.Normal.Normalized
import ContextFree.Proofs.Normal.Binarize
import ContextFree.Proofs.Normal.NullingFree
import ContextFree.Proofs.Normal.UnitFree
import ContextFree.Proofs.Normal.Useful
import ContextFree.Proofs.Provenance.TraceBack
import ContextFree.Proofs.Run

/-!
# Normalization as a whole

The stages fit together: each leaves a valid grammar over the same symbols for the next, and what
comes to the last one can be converted (`Grammar.unitFreePart_convertible`). So normalizing a valid
grammar fails only for want of a rule for its start symbol (`Grammar.outcome_normalize`). If it
succeeds, it took the grammar as it was, since it was in normal form, or it went through all stages
(`Grammar.exists_of_normalize`). The result is in normal form, its start symbol derives the words it
did before, the empty one excepted (`Grammar.spells_normalized_iff`), and the history leads back to
the given grammar (`Grammar.exists_leadsBack`).
-/

namespace ContextFree

namespace Grammar

variable {g : Grammar} {n : Normalized} {start : Symbol} {word : List Symbol}

/-- The grammar without its useless rules. -/
def usefulPart (g : Grammar) (start : Symbol) : Grammar := g.productivePart.reachablePart start

/-- The grammar without useless and nulling rules. -/
def nullingFreePart (g : Grammar) (start : Symbol) : Grammar :=
  (g.usefulPart start).eliminateNulling.grammar

/-- The grammar without useless, nulling and unit rules. -/
def unitFreePart (g : Grammar) (start : Symbol) : Grammar :=
  (g.nullingFreePart start).eliminateUnits.grammar

/-- What the stages leave behind. -/
def fullHistory (g : Grammar) (start : Symbol) : History :=
  ((History.empty.setNulling (g.usefulPart start).eliminateNulling.record).setUnits
    (g.nullingFreePart start).eliminateUnits.record).setSplit (g.unitFreePart start).binarize.record

/-! ## The stages one after the other -/

theorem usefulPart_valid (hg : g.Valid) (start : Symbol) : (g.usefulPart start).Valid :=
  reachablePart_valid (productivePart_valid hg)

theorem nullingFreePart_valid (hg : g.Valid) (start : Symbol) : (g.nullingFreePart start).Valid :=
  eliminateNulling_valid (usefulPart_valid hg start)

theorem unitFreePart_valid (hg : g.Valid) (start : Symbol) : (g.unitFreePart start).Valid :=
  eliminateUnits_valid (nullingFreePart_valid hg start)

/-- The stages before the conversion change nothing but the rules. -/
theorem unitFreePart_eq (g : Grammar) (start : Symbol) :
    g.unitFreePart start = { g with rules := (g.unitFreePart start).rules } := by
  have hnulling := eliminateNulling_grammar (g.usefulPart start)
  have hunits := eliminateUnits_grammar (g.nullingFreePart start)
  rw [nullingFreePart, hnulling] at hunits
  rw [unitFreePart, nullingFreePart, hnulling, hunits]
  rfl

theorem isTerminal_nullingFreePart (g : Grammar) (start : Symbol) :
    (g.nullingFreePart start).isTerminal = g.isTerminal :=
  isTerminal_eliminateNulling

theorem isTerminal_unitFreePart (g : Grammar) (start : Symbol) :
    (g.unitFreePart start).isTerminal = g.isTerminal :=
  isTerminal_eliminateUnits.trans (isTerminal_nullingFreePart g start)

/-- No rule that comes to the conversion is a nulling or unit rule. -/
theorem conversionError?_unitFreePart (hg : g.Valid) {rule : Rule}
    (hr : rule ∈ (g.unitFreePart start).rules) :
    (g.unitFreePart start).conversionError? rule = none := by
  obtain ⟨origin, horigin, hrhs⟩ := exists_rhs_eq_of_mem_eliminateUnits hr
  refine conversionError?_eq_none_iff.2 ⟨?_, ?_⟩
  · rw [← hrhs]
    exact nullingDraft_rhs_ne_nil (usefulPart_valid hg start).isTerminal_lhs
      (mem_eliminateNulling_iff.1 horigin).1
  · rw [← isUnitRule_eliminateUnits hr]
    exact isUnitRule_congr isTerminal_eliminateUnits

/-- What comes to the conversion can be converted. -/
theorem unitFreePart_convertible (hw : g.WellFormed) (hg : g.Valid) (start : Symbol) :
    (g.unitFreePart start).Convertible := by
  refine ⟨⟨nodup_eliminateUnits _, fun s hs => ?_⟩, unitFreePart_valid hg start,
    fun rule hr => conversionError?_unitFreePart hg hr⟩
  rw [isTerminal_unitFreePart] at hs
  rw [unitFreePart_eq]
  exact hw.terminals s hs

/-- The last grammar before the conversion derives what the given one does from the start symbol,
the empty word excepted. -/
theorem spells_unitFreePart_iff (hg : g.Valid) (hs : g.start = some start) :
    (g.unitFreePart start).Spells [start] word ↔ g.Spells [start] word ∧ word ≠ [] := by
  rw [unitFreePart, spells_eliminateUnits_iff (nullingFreePart_valid hg start), nullingFreePart,
    spells_eliminateNulling_iff (usefulPart_valid hg start).isTerminal_lhs, usefulPart,
    spells_useful_iff hg hs]

/-! ## The result -/

/-- The conversion of the last grammar fails only if no rule for the start symbol is left. -/
theorem toNormalForm_unitFreePart (hg : g.Valid) (hs : g.start = some start) :
    (g.unitFreePart start).toNormalForm =
      if ((g.unitFreePart start).rulesFor start).isEmpty then .error (.noStartRule start)
      else .ok (g.unitFreePart start).binarize := by
  refine toNormalForm_eq ?_ fun rule hr => conversionError?_unitFreePart hg hr
  rw [unitFreePart_eq]
  exact hs

/-- Normalizing a valid grammar through all stages ends as the conversion of the last grammar does.
-/
theorem outcome_normalizeFully (h : g.validStart = .ok start) :
    g.normalizeFully.outcome = (g.unitFreePart start).toNormalForm.map fun normal =>
      { grammar := normal.grammar
        history := ((History.empty.setNulling (g.usefulPart start).eliminateNulling.record).setUnits
          (g.nullingFreePart start).eliminateUnits.record).setSplit normal.record
        shortCircuited := false } := by
  unfold normalizeFully removeUseless unitFreePart nullingFreePart usefulPart
  rw [h]
  simp only [Run.outcome_bind, Run.outcome_ofExcept, Stage.run, Except.map, Except.bind,
    Run.outcome_emit, Run.outcome_pure]
  cases ((g.productivePart.reachablePart start).eliminateNulling.grammar.eliminateUnits.grammar)
    |>.toNormalForm with
  | error e => rfl
  | ok normal => rfl

/-- A grammar that is not valid is not normalized. -/
theorem outcome_normalize_of_error {e : NormalizeError} (h : g.validStart = .error e) :
    g.normalize.outcome = .error e := by
  rw [normalize, h]
  rfl

/-- How normalizing a valid grammar ends depends on the rules for its start symbol: those it has, if
it is in normal form, and otherwise those left before the conversion. -/
theorem outcome_normalize (h : g.validStart = .ok start) :
    g.normalize.outcome =
      if g.isNormal then
        if (g.rulesFor start).isEmpty then .error (.noStartRule start) else .ok ⟨g, .empty, true⟩
      else if ((g.unitFreePart start).rulesFor start).isEmpty then .error (.noStartRule start)
      else .ok ⟨(g.unitFreePart start).binarize.grammar, g.fullHistory start, false⟩ := by
  obtain ⟨hg, hs⟩ := validStart_eq_ok_iff.1 h
  rw [normalize, h]
  cases g.isNormal with
  | true =>
    show (if _ then _ else _ : Run NormalizeError Normalized).outcome = if _ then _ else _
    split
    · rfl
    · rfl
  | false =>
    show g.normalizeFully.outcome = if _ then _ else _
    rw [outcome_normalizeFully h, toNormalForm_unitFreePart hg hs]
    split
    · rfl
    · rfl

/-- A normalization that succeeds took the grammar as it was or went through all stages. -/
theorem exists_of_normalize (h : g.normalize.outcome = .ok n) :
    ∃ start, g.Valid ∧ g.start = some start ∧
      (g.isNormal = true ∧ n.grammar = g ∧ n.history = .empty ∨
        n.grammar = (g.unitFreePart start).binarize.grammar ∧ n.history = g.fullHistory start) := by
  cases hvalid : g.validStart with
  | error e => rw [outcome_normalize_of_error hvalid] at h; exact absurd h (by simp)
  | ok start =>
    obtain ⟨hg, hstart⟩ := validStart_eq_ok_iff.1 hvalid
    refine ⟨start, hg, hstart, ?_⟩
    rw [outcome_normalize hvalid] at h
    split at h
    · next hn =>
      split at h
      · exact absurd h (by simp)
      · obtain rfl := Except.ok.inj h
        exact .inl ⟨hn, rfl, rfl⟩
    · split at h
      · exact absurd h (by simp)
      · obtain rfl := Except.ok.inj h
        exact .inr ⟨rfl, rfl⟩

/-- The result of normalization is in normal form. -/
theorem isNormal_normalized (hw : g.WellFormed) (h : g.normalize.outcome = .ok n) :
    n.grammar.isNormal = true := by
  obtain ⟨start, hg, -, ⟨hn, hgrammar, -⟩ | ⟨hgrammar, -⟩⟩ := exists_of_normalize h
  · rwa [hgrammar]
  · rw [hgrammar]
    exact (unitFreePart_convertible hw hg start).isNormal

/-- Normalization keeps the terminals and the start symbol, and left-hand sides are variables. -/
theorem normalized_facts (hw : g.WellFormed) (h : g.normalize.outcome = .ok n) :
    n.grammar.isTerminal = g.isTerminal ∧ n.grammar.start = g.start ∧
      ∀ rule ∈ n.grammar.rules, n.grammar.isTerminal rule.lhs = false := by
  obtain ⟨start, hg, -, ⟨-, hgrammar, -⟩ | ⟨hgrammar, -⟩⟩ := exists_of_normalize h
  · rw [hgrammar]
    exact ⟨rfl, rfl, hg.isTerminal_lhs⟩
  · have hconv := unitFreePart_convertible hw hg start
    rw [hgrammar, hconv.isTerminal_eq]
    refine ⟨isTerminal_unitFreePart g start, ?_, fun rule hr => hconv.isTerminal_lhs hr⟩
    rw [hconv.start_eq, unitFreePart_eq]

/-- The start symbol derives the words it did before, the empty one excepted. -/
theorem spells_normalized_iff (hw : g.WellFormed) (h : g.normalize.outcome = .ok n)
    (hs : g.start = some start) :
    n.grammar.Spells [start] word ↔ g.Spells [start] word ∧ word ≠ [] := by
  obtain ⟨s, hg, hs', hcase⟩ := exists_of_normalize h
  obtain rfl : s = start := Option.some.inj (hs'.symm.trans hs)
  rcases hcase with ⟨hn, hgrammar, -⟩ | ⟨hgrammar, -⟩
  · -- A grammar in normal form does not derive the empty word in the first place.
    rw [hgrammar]
    exact ⟨fun h => ⟨h, h.ne_nil (rhs_ne_nil_of_isNormal hn) (by simp)⟩, fun h => h.1⟩
  · obtain ⟨t, ht, hknows, hv⟩ := (unitFreePart_valid hg s).start
    rw [unitFreePart_eq] at ht
    obtain rfl : t = s := Option.some.inj (ht.symm.trans hs)
    rw [hgrammar, (unitFreePart_convertible hw hg _).spells_binarize_iff hknows hv,
      spells_unitFreePart_iff hg hs]

/-- The history of the stages leads back to the given grammar. -/
theorem fullHistory_leadsBack (hw : g.WellFormed) (hg : g.Valid) :
    (g.fullHistory start).LeadsBack g (g.usefulPart start) (g.nullingFreePart start)
      (g.unitFreePart start) (g.unitFreePart start).binarize.grammar := by
  have hconv := unitFreePart_convertible hw hg start
  have hnulling : (g.usefulPart start).eliminateNulling.record.Explains (g.usefulPart start)
      (g.nullingFreePart start) :=
    eliminateNulling_explains (usefulPart_valid hg start).isTerminal_lhs
  have hunits : (g.nullingFreePart start).eliminateUnits.record.Explains (g.nullingFreePart start)
      (g.unitFreePart start) := eliminateUnits_explains _
  refine ⟨⟨rfl, isTerminal_nullingFreePart g start, isTerminal_unitFreePart g start,
    hconv.isTerminal_eq.trans (isTerminal_unitFreePart g start)⟩, ?_, ?_, ?_, ?_, ?_, ?_⟩
  · rw [unitFreePart_eq]
  · rw [fullHistory]
    exact History.accounts_split hconv.explains (fun hid _ => hconv.mem_of_isIdentity hid) _
  · rw [fullHistory]
    exact History.accounts_units hunits _ _
  · rw [fullHistory]
    exact History.accounts_nulling hnulling _ _ _
  · intro rule hm
    rw [← isTerminal_nullingFreePart g start]
    exact (nullingFreePart_valid hg start).isTerminal_lhs rule hm
  · intro rule hm
    exact (List.mem_filter.1 (List.mem_filter.1 hm).1).1

/-- The history of a normalization leads back to the given grammar. -/
theorem exists_leadsBack (hw : g.WellFormed) (h : g.normalize.outcome = .ok n) :
    ∃ useful nullingFree unitFree, n.history.LeadsBack g useful nullingFree unitFree n.grammar := by
  obtain ⟨start, hg, -, ⟨-, hgrammar, hhistory⟩ | ⟨hgrammar, hhistory⟩⟩ := exists_of_normalize h
  · rw [hgrammar, hhistory]
    refine ⟨g, g, g, ⟨rfl, rfl, rfl, rfl⟩, rfl, ?_, ?_, ?_, hg.isTerminal_lhs, ?_⟩
    · exact .ofSubset fun _ hm => hm
    · exact .ofSubset fun _ hm => hm
    · exact .ofSubset fun _ hm => hm
    · exact fun _ hm => hm
  · rw [hgrammar, hhistory]
    exact ⟨_, _, _, fullHistory_leadsBack hw hg⟩

/-! ## What is recorded -/

/-- The history of a normalization has nothing but chains about unit rules. -/
theorem exists_chains_of_units (h : g.normalize.outcome = .ok n) {units : UnitMap}
    (hu : n.history.units = some units) :
    ∃ before : Grammar, before.isTerminal = g.isTerminal ∧ units.Chains before := by
  obtain ⟨start, -, -, ⟨-, -, hhistory⟩ | ⟨-, hhistory⟩⟩ := exists_of_normalize h
  · rw [hhistory] at hu
    exact absurd hu (by simp [History.empty])
  · rw [hhistory, fullHistory] at hu
    rw [History.eq_of_units_setUnits hu]
    exact ⟨g.nullingFreePart start, isTerminal_nullingFreePart g start, eliminateUnits_chains _⟩

/-- The history of a normalization has the record of the conversion of some grammar with the same
symbols, if it has one of a split at all. -/
theorem exists_convertible_of_split (hw : g.WellFormed) (h : g.normalize.outcome = .ok n)
    {split : SplitMap} (hs : n.history.split = some split) :
    ∃ before : Grammar, before.Convertible ∧ before.symbols = g.symbols ∧
      n.grammar = before.binarize.grammar ∧ split = before.binarize.record := by
  obtain ⟨start, hg, -, ⟨-, -, hhistory⟩ | ⟨hgrammar, hhistory⟩⟩ := exists_of_normalize h
  · rw [hhistory] at hs
    exact absurd hs (by simp [History.empty])
  · rw [hhistory, fullHistory] at hs
    refine ⟨g.unitFreePart start, unitFreePart_convertible hw hg start, ?_, hgrammar,
      History.eq_of_split_setSplit hs⟩
    rw [unitFreePart_eq]

end Grammar

end ContextFree
