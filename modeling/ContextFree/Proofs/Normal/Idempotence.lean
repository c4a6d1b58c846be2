import ContextFree.Proofs.Chart.ShortCircuit
import ContextFree.Proofs.Normal.Failure
import ContextFree.Proofs.Operation

/-!
# Normalizing once is enough

What a stage makes of a grammar leaves the same stage nothing to do. The filters are stable: the
symbols of a useful rule derive words by useful rules, and a path to it from the start symbol is one
of useful rules (`Grammar.usefulPart_usefulPart`). The symbols of the rules left by the elimination
of nulling rules derive words, none of them empty (`Grammar.eliminateNulling_eliminateNulling`). The
elimination of unit rules leaves none (`Grammar.eliminateUnits_eliminateUnits`). The conversion
gives a grammar in normal form and keeps a rule for every variable that had one
(`Grammar.Convertible.exists_lhs_eq`), so it can be done again, and changes nothing
(`Grammar.toNormalForm_toNormalForm`). For the same reason the result of normalization is taken as
it is when it is normalized (`Grammar.normalize_normalize`).
-/

namespace ContextFree.Grammar

variable {g : Grammar} {n : Normalized} {start s : Symbol} {normal : Stage SplitMap}

/-! ## Useless rules -/

/-- What is reachable by productive rules is reachable by useful ones. -/
theorem mem_reachableFrom_usefulPart (hg : g.Valid) (hstart : g.knows start = true)
    (hs : s ∈ g.productivePart.reachableFrom start) :
    s ∈ (g.usefulPart start).reachableFrom start := by
  have hvalid := productivePart_valid hg
  rw [mem_reachableFrom_iff hvalid hstart] at hs
  rw [mem_reachableFrom_iff (usefulPart_valid hg start) hstart]
  induction hs with
  | refl => exact .refl
  | tail hpath hlast ih =>
    -- The last rule of the path is for a symbol that is reachable, so it is kept.
    obtain ⟨rule, hr, rfl, hmem⟩ := hlast
    have hlhs := (mem_reachableFrom_iff hvalid hstart).2 hpath
    have huseful : rule ∈ (g.usefulPart start).rules :=
      List.mem_filter.2 ⟨hr, SymbolSet.contains_iff.2 hlhs⟩
    exact ih.tail ⟨rule, huseful, rfl, hmem⟩

/-- All useful rules are useful without the others. -/
theorem usefulPart_usefulPart (hg : g.Valid) (hstart : g.knows start = true) :
    (g.usefulPart start).usefulPart start = g.usefulPart start := by
  have hproductive : (g.usefulPart start).productivePart = g.usefulPart start :=
    productivePart_eq_self fun rule hr s hs => mem_productive_usefulPart hg hstart hr hs
  have hreachable : (g.usefulPart start).reachablePart start = g.usefulPart start := by
    refine reachablePart_eq_self fun rule hr => mem_reachableFrom_usefulPart hg hstart ?_
    exact SymbolSet.contains_iff.1 (List.mem_filter.1 hr).2
  calc (g.usefulPart start).usefulPart start
      = (g.usefulPart start).productivePart.reachablePart start := rfl
    _ = (g.usefulPart start).reachablePart start := by rw [hproductive]
    _ = g.usefulPart start := hreachable

/-- Removing the useless rules twice is removing them once. -/
theorem removeUseless_removeUseless (hg : g.Valid) :
    ∃ useful again, g.removeUseless = .ok useful ∧ useful.grammar.removeUseless = .ok again ∧
      again.grammar = useful.grammar := by
  obtain ⟨start, hs, hstart, -⟩ := hg.start
  obtain ⟨useful, huseful, hgrammar⟩ := exists_removeUseless hg hs
  have hs' : (g.usefulPart start).start = some start := hs
  obtain ⟨again, hagain, hgrammar'⟩ := exists_removeUseless (usefulPart_valid hg start) hs'
  refine ⟨useful, again, huseful, ?_, ?_⟩
  · rw [hgrammar, hagain]
  · rw [hgrammar', hgrammar, usefulPart_usefulPart hg hstart]

/-! ## Nulling rules and unit rules -/

/-- The elimination of nulling rules leaves itself nothing to do. -/
theorem eliminateNulling_eliminateNulling (hg : g.Valid) :
    g.eliminateNulling.grammar.eliminateNulling.grammar = g.eliminateNulling.grammar ∧
      g.eliminateNulling.grammar.eliminateNulling.record = ∅ := by
  refine eliminateNulling_eq_self (nodup_eliminateNulling g) (fun rule hr => ?_)
    fun rule hr s hs => ?_
  · exact nullingDraft_rhs_ne_nil hg.isTerminal_lhs (mem_eliminateNulling_iff.1 hr).1
  · obtain ⟨word, hword⟩ := exists_spells_eliminateNulling hg.isTerminal_lhs hr hs
    exact hword.mem_productive s (by simp)

/-- The elimination of unit rules leaves itself nothing to do. -/
theorem eliminateUnits_eliminateUnits (g : Grammar) :
    g.eliminateUnits.grammar.eliminateUnits.grammar = g.eliminateUnits.grammar ∧
      g.eliminateUnits.grammar.eliminateUnits.record = ∅ := by
  refine eliminateUnits_eq_self (nodup_eliminateUnits g) fun rule hr => ?_
  rw [← isUnitRule_eliminateUnits hr]
  exact isUnitRule_congr isTerminal_eliminateUnits

/-! ## The conversion -/

/-- The conversion keeps a rule for every variable that had one. -/
theorem Convertible.exists_lhs_eq (hg : g.Convertible) (h : ∃ rule ∈ g.rules, rule.lhs = s) :
    ∃ rule ∈ g.binarize.grammar.rules, rule.lhs = s := by
  obtain ⟨origin, horigin, rfl⟩ := h
  obtain ⟨split, hget⟩ := (hg.converts.recorded origin).1 horigin
  obtain ⟨op, rfl, hop, hin⟩ := hg.converts.splits origin split hget
  -- The first rule of the split has the left-hand side of the rule that is split.
  obtain ⟨hlhs, hrules, -⟩ := hop.eq_top
  refine ⟨op.top, hin op.top ?_, hlhs⟩
  rw [hrules]
  exact List.mem_cons_self

/-- There is a rule for a symbol exactly when the list of its rules is not empty. -/
theorem exists_rule_iff_not_isEmpty :
    (∃ rule ∈ g.rules, rule.lhs = start) ↔ ¬(g.rulesFor start).isEmpty = true := by
  rw [isEmpty_rulesFor_iff]
  simp

/-- A grammar in normal form with a rule for its start symbol can be converted. -/
theorem toNormalForm_of_isNormal (hs : g.start = some start) (hn : g.isNormal = true)
    (hr : ∃ rule ∈ g.rules, rule.lhs = start) : g.toNormalForm = .ok g.binarize := by
  have hrules : ∀ rule ∈ g.rules, g.conversionError? rule = none := fun rule hm =>
    conversionError?_eq_none_iff.2
      ⟨rhs_ne_nil_of_isNormal hn rule hm, isUnitRule_of_isNormal hn rule hm⟩
  rw [toNormalForm_eq hs hrules, if_neg (exists_rule_iff_not_isEmpty.1 hr)]

/-- A conversion that succeeds has a grammar without nulling and unit rules, and a rule for its
start symbol. -/
theorem convertible_of_toNormalForm (hw : g.WellFormed) (hg : g.Valid) (hs : g.start = some start)
    (h : g.toNormalForm = .ok normal) :
    g.Convertible ∧ normal = g.binarize ∧ ∃ rule ∈ g.rules, rule.lhs = start := by
  obtain ⟨hnormal, hrules⟩ := eq_binarize_of_toNormalForm h
  refine ⟨⟨hw, hg, hrules⟩, hnormal, exists_rule_iff_not_isEmpty.2 fun hempty => ?_⟩
  rw [toNormalForm_eq hs hrules, if_pos hempty] at h
  exact absurd h (by simp)

/-- A grammar that was converted is converted into itself, and each rule is split into itself. -/
theorem toNormalForm_toNormalForm (hw : g.WellFormed) (hg : g.Valid)
    (h : g.toNormalForm = .ok normal) :
    ∃ again, normal.grammar.toNormalForm = .ok again ∧ again.grammar = normal.grammar ∧
      again.record.isIdentity = true ∧ again.record.size = normal.grammar.size ∧
      ∀ rule, again.record.get? rule =
        if rule ∈ normal.grammar.rules then some [rule] else none := by
  obtain ⟨start, hs, -, -⟩ := hg.start
  obtain ⟨hconv, rfl, hrule⟩ := convertible_of_toNormalForm hw hg hs h
  have hn := hconv.isNormal
  have hnodup := (g.keeps_binarize.wellFormed hw).nodup
  obtain ⟨hself, -, hget⟩ := binarize_eq_self hnodup hn
  exact ⟨_, toNormalForm_of_isNormal (hconv.start_eq.trans hs) hn (hconv.exists_lhs_eq hrule),
    hself, isIdentity_binarize hnodup hn, size_binarize hnodup hn, hget⟩

/-! ## Normalization -/

/-- The result of normalization is a valid grammar with a rule for its start symbol. -/
theorem normalized_valid (hw : g.WellFormed) (h : g.normalize.outcome = .ok n) :
    ∃ start, n.grammar.Valid ∧ n.grammar.start = some start ∧
      ∃ rule ∈ n.grammar.rules, rule.lhs = start := by
  obtain ⟨start, hg, hs, -⟩ := exists_of_normalize h
  rw [outcome_normalize (validStart_eq_ok_iff.2 ⟨hg, hs⟩)] at h
  refine ⟨start, ?_⟩
  split at h
  · split at h
    · exact absurd h (by simp)
    · next hrules =>
      obtain rfl := Except.ok.inj h
      exact ⟨hg, hs, exists_rule_iff_not_isEmpty.2 hrules⟩
  · split at h
    · exact absurd h (by simp)
    · next hrules =>
      obtain rfl := Except.ok.inj h
      have hconv := unitFreePart_convertible hw hg start
      dsimp only
      refine ⟨hconv.binarize_valid, ?_, ?_⟩
      · rw [hconv.start_eq, unitFreePart_eq]
        exact hs
      · exact hconv.exists_lhs_eq (exists_rule_iff_not_isEmpty.2 hrules)

/-- The result of normalization is taken as it is when it is normalized. -/
theorem normalize_normalize (hw : g.WellFormed) (h : g.normalize.outcome = .ok n) :
    n.grammar.normalize.outcome = .ok ⟨n.grammar, .empty, true⟩ := by
  obtain ⟨start, hvalid, hs, hrule⟩ := normalized_valid hw h
  rw [outcome_normalize (validStart_eq_ok_iff.2 ⟨hvalid, hs⟩), if_pos (isNormal_normalized hw h),
    if_neg (exists_rule_iff_not_isEmpty.1 hrule)]

/-- Normalization is idempotent on valid grammars that are built, stage by stage and as a whole. A
stage gives its own result back, with empty records of nulling and unit rules, and with a record of
the split that has one entry for each rule and splits it into itself. The result of normalization is
normalized as it is, with an empty history. -/
theorem normalization_idempotent (hb : g.Built) (hv : g.validate = .ok ()) :
    (∃ useful again, g.removeUseless = .ok useful ∧ useful.grammar.removeUseless = .ok again ∧
      again.grammar = useful.grammar) ∧
    (g.eliminateNulling.grammar.eliminateNulling.grammar = g.eliminateNulling.grammar ∧
      g.eliminateNulling.grammar.eliminateNulling.record.isEmpty = true) ∧
    (g.eliminateUnits.grammar.eliminateUnits.grammar = g.eliminateUnits.grammar ∧
      g.eliminateUnits.grammar.eliminateUnits.record.isEmpty = true) ∧
    (∀ normal, g.toNormalForm = .ok normal →
      ∃ again, normal.grammar.toNormalForm = .ok again ∧ again.grammar = normal.grammar ∧
        again.record.isIdentity = true ∧ again.record.size = normal.grammar.size ∧
        ∀ rule, again.record.get? rule =
          if rule ∈ normal.grammar.rules then some [rule] else none) ∧
    ∀ n, g.normalize.outcome = .ok n →
      n.grammar.normalize.outcome = .ok ⟨n.grammar, .empty, true⟩ := by
  have hg := validate_eq_ok_iff.1 hv
  have hw := hb.wellFormed
  obtain ⟨hnulling, hnone⟩ := eliminateNulling_eliminateNulling hg
  obtain ⟨hunits, hnone'⟩ := eliminateUnits_eliminateUnits g
  refine ⟨removeUseless_removeUseless hg, ⟨hnulling, ?_⟩, ⟨hunits, ?_⟩,
    fun normal h => toNormalForm_toNormalForm hw hg h, fun n h => normalize_normalize hw h⟩
  · rw [hnone]
    rfl
  · rw [hnone']
    rfl

/-- The grammar with the rules `S → a S b`, `S → a b` and `U → U U`. The variable `U` derives no
word. -/
def nesting : Grammar :=
  Grammar.empty
    |>.addVariable (some "S")
    |>.addVariable (some "U")
    |>.addTerminal "a"
    |>.addTerminal "b"
    |>.setStart ⟨0⟩
    |>.addRule ⟨⟨0⟩, [⟨2⟩, ⟨0⟩, ⟨3⟩]⟩
    |>.addRule ⟨⟨0⟩, [⟨2⟩, ⟨3⟩]⟩
    |>.addRule ⟨⟨1⟩, [⟨1⟩, ⟨1⟩]⟩

theorem nesting_built : nesting.Built :=
  .addRule _ (.addRule _ (.addRule _ (.setStart _ (.addTerminal _ (.addTerminal _ (.addVariable _
    (.addVariable _ .empty)))))))

/-- Of the three rules two are useful, and the same two again. The conversion makes six rules, which
a second one keeps, and the five rules of the normalized grammar are kept, too. -/
theorem normalization_idempotent_nesting :
    nesting.validate = .ok () ∧
    (∃ useful again, nesting.removeUseless = .ok useful ∧ useful.grammar.size = 2 ∧
      useful.grammar.removeUseless = .ok again ∧ again.grammar = useful.grammar) ∧
    (∃ normal again, nesting.toNormalForm = .ok normal ∧ normal.grammar.size = 6 ∧
      normal.grammar.toNormalForm = .ok again ∧ again.grammar = normal.grammar ∧
      again.record.size = 6) ∧
    ∃ n, nesting.normalize.outcome = .ok n ∧ n.grammar.size = 5 ∧ n.shortCircuited = false ∧
      n.grammar.normalize.outcome = .ok ⟨n.grammar, .empty, true⟩ := by
  have hv : nesting.validate = .ok () := by decide +kernel
  have hremoves : nesting.removeUseless.toOption.any (fun useful =>
      decide (useful.grammar.size = 2)) = true := by
    decide +kernel
  have hconverts : nesting.toNormalForm.toOption.any (fun normal =>
      decide (normal.grammar.size = 6)) = true := by
    decide +kernel
  have hnormalizes : nesting.normalize.outcome.toOption.any (fun n =>
      decide (n.grammar.size = 5 ∧ n.shortCircuited = false)) = true := by
    decide +kernel
  obtain ⟨useful, huseful, htwo⟩ := Run.exists_eq_ok_of_any hremoves
  obtain ⟨normal, hnormal, hsix⟩ := Run.exists_eq_ok_of_any hconverts
  obtain ⟨n, hn, hfive⟩ := Run.exists_eq_ok_of_any hnormalizes
  rw [decide_eq_true_eq] at htwo hsix hfive
  obtain ⟨⟨useful', again, huseful', hagain, hsame⟩, -, -, hconversion, hnormalization⟩ :=
    normalization_idempotent nesting_built hv
  obtain rfl := Except.ok.inj (huseful.symm.trans huseful')
  obtain ⟨again', hagain', hsame', -, hcount, -⟩ := hconversion normal hnormal
  exact ⟨hv, ⟨useful, again, huseful, htwo, hagain, hsame⟩,
    ⟨normal, again', hnormal, hsix, hagain', hsame', hcount.trans hsix⟩,
    n, hn, hfive.1, hfive.2, hnormalization n hn⟩

end ContextFree.Grammar
