import ContextFree.Proofs.Parser

/-!
# When normalization fails

Normalization refuses a grammar that has no start symbol or another fault. A valid grammar in normal
form is refused if its start symbol has no rule. Any other valid grammar is refused if it derives
nothing but, at most, the empty word: the symbols of every rule that is left before the conversion
derive some word (`Grammar.exists_spells_unitFreePart`), so a rule for the start symbol is left
exactly when there is a word to derive (`Grammar.exists_rule_unitFreePart_iff`). `Grammar.Fails`
lists these cases. Each of them ends in its error (`Grammar.Fails.outcome_normalize`), and outside
of them normalization succeeds (`Grammar.exists_normalized_or_fails`).
-/

namespace ContextFree

namespace Grammar

variable {g : Grammar} {start : Symbol} {fault : Fault} {e : NormalizeError}

/-! ## Faults -/

/-- The rules of a grammar have nothing to do with a missing start symbol. -/
theorem ruleFault?_ne_missingStart (g : Grammar) (rule : Rule) :
    g.ruleFault? rule ≠ some .missingStart := by
  unfold ruleFault?
  split
  · simp
  · split <;> simp

/-- A start symbol is reported missing exactly when there is none. -/
theorem validate_eq_missingStart_iff :
    g.validate = .error .missingStart ↔ g.start = none := by
  have hfault : g.validate = .error .missingStart ↔ g.fault? = some .missingStart := by
    unfold validate
    cases g.fault? <;> simp
  rw [hfault]
  unfold fault?
  cases g.start with
  | none => simp
  | some start =>
    refine ⟨fun h => ?_, fun h => absurd h (by simp)⟩
    dsimp only at h
    split at h
    · exact absurd h (by simp)
    · split at h
      · exact absurd h (by simp)
      · obtain ⟨rule, -, hrule⟩ := List.exists_of_findSome?_eq_some h
        exact absurd hrule (ruleFault?_ne_missingStart g rule)

/-- A grammar with a fault is not normalized, and the fault is the reason. -/
theorem outcome_normalize_of_fault (h : g.validate = .error fault) :
    g.normalize.outcome = .error (.ofFault fault) := by
  refine outcome_normalize_of_error ?_
  rw [validStart, h]
  rfl

/-! ## Rules that are left -/

/-- There is no rule for a symbol exactly when none has it on its left-hand side. -/
theorem isEmpty_rulesFor_iff :
    (g.rulesFor start).isEmpty = true ↔ ∀ rule ∈ g.rules, rule.lhs ≠ start := by
  simp [rulesFor]

/-- The right-hand side of a rule that is left before the conversion spells some word. -/
theorem exists_spells_unitFreePart (hg : g.Valid) {rule : Rule}
    (hr : rule ∈ (g.unitFreePart start).rules) :
    ∃ word, (g.unitFreePart start).Spells rule.rhs word := by
  obtain ⟨origin, horigin, hrhs⟩ := exists_rhs_eq_of_mem_eliminateUnits hr
  rw [← hrhs]
  refine exists_spells_of_forall fun s hs => ?_
  obtain ⟨word, hword⟩ := exists_spells_eliminateNulling
    (usefulPart_valid hg start).isTerminal_lhs horigin hs
  exact ⟨word, hword.eliminateUnits (nullingFreePart_valid hg start)⟩

/-- A rule for the start symbol is left before the conversion exactly when the language has a word
that is not empty. -/
theorem exists_rule_unitFreePart_iff (hg : g.Valid) (hs : g.start = some start) :
    (∃ rule ∈ (g.unitFreePart start).rules, rule.lhs = start) ↔
      ∃ word, g.Language word ∧ word ≠ [] := by
  obtain ⟨s, hs', -, hv⟩ := hg.start
  obtain rfl : s = start := Option.some.inj (hs'.symm.trans hs)
  have hv' : (g.unitFreePart s).isTerminal s = false := by rwa [isTerminal_unitFreePart]
  constructor
  · rintro ⟨rule, hr, hlhs⟩
    obtain ⟨word, hword⟩ := exists_spells_unitFreePart hg hr
    have hspells := (yields_iff_spells hv').1 ⟨rule, hr, hlhs, hword⟩
    obtain ⟨hbefore, hne⟩ := (spells_unitFreePart_iff hg hs).1 hspells
    exact ⟨word, (language_iff_spells hs hv).2 hbefore, hne⟩
  · rintro ⟨word, hword, hne⟩
    have hspells := (spells_unitFreePart_iff hg hs).2 ⟨(language_iff_spells hs hv).1 hword, hne⟩
    obtain ⟨rule, hr, hlhs, -⟩ := (yields_iff_spells hv').2 hspells
    exact ⟨rule, hr, hlhs⟩

/-! ## The cases -/

/-- Why a grammar cannot be normalized, told by what the grammar is. -/
inductive Fails (g : Grammar) : NormalizeError → Prop where
  /-- There is no start symbol. -/
  | missingStart (start : g.start = none) : Fails g .missingStart
  /-- There is a start symbol, but the grammar has some other fault. -/
  | invalidGrammar {fault : Fault} (start : g.start ≠ none) (found : g.validate = .error fault) :
      Fails g (.invalidGrammar fault)
  /-- The grammar is in normal form, and its start symbol has no rule. -/
  | noRule {s : Symbol} (valid : g.validate = .ok ()) (normal : g.isNormal = true)
      (start : g.start = some s) (rules : ∀ rule ∈ g.rules, rule.lhs ≠ s) :
      Fails g (.noStartRule s)
  /-- The grammar is not in normal form, and derives no word but the empty one. -/
  | noWord {s : Symbol} (valid : g.validate = .ok ()) (normal : g.isNormal = false)
      (start : g.start = some s) (words : ∀ word, g.Language word → word = []) :
      Fails g (.noStartRule s)

/-- Each case ends in its error. -/
theorem Fails.outcome_normalize (h : g.Fails e) : g.normalize.outcome = .error e := by
  cases h with
  | missingStart hs => exact outcome_normalize_of_fault (validate_eq_missingStart_iff.2 hs)
  | @invalidGrammar fault hs hfault =>
    rw [outcome_normalize_of_fault hfault]
    cases fault with
    | missingStart => exact absurd (validate_eq_missingStart_iff.1 hfault) hs
    | terminalStart _ => rfl
    | terminalLhs _ => rfl
    | unknownSymbol _ => rfl
  | noRule hvalid hn hs hrules =>
    have hstart := validStart_eq_ok_iff.2 ⟨validate_eq_ok_iff.1 hvalid, hs⟩
    rw [Grammar.outcome_normalize hstart, if_pos hn, if_pos (isEmpty_rulesFor_iff.2 hrules)]
  | noWord hvalid hn hs hwords =>
    have hg := validate_eq_ok_iff.1 hvalid
    have hstart := validStart_eq_ok_iff.2 ⟨hg, hs⟩
    rw [Grammar.outcome_normalize hstart, if_neg (by simp [hn]), if_pos]
    refine isEmpty_rulesFor_iff.2 fun rule hr hlhs => ?_
    obtain ⟨word, hword, hne⟩ := (exists_rule_unitFreePart_iff hg hs).1 ⟨rule, hr, hlhs⟩
    exact hne (hwords word hword)

/-- Outside of these cases normalization succeeds. -/
theorem exists_normalized_or_fails (g : Grammar) :
    (∃ n, g.normalize.outcome = .ok n) ∨ ∃ e, g.Fails e := by
  cases hvalid : g.validate with
  | error fault =>
    by_cases hs : g.start = none
    · exact .inr ⟨_, .missingStart hs⟩
    · exact .inr ⟨_, .invalidGrammar hs hvalid⟩
  | ok _ =>
    have hg := validate_eq_ok_iff.1 hvalid
    obtain ⟨start, hs, -, -⟩ := hg.start
    rw [outcome_normalize (validStart_eq_ok_iff.2 ⟨hg, hs⟩)]
    split
    · next hn =>
      split
      · next hempty => exact .inr ⟨_, .noRule hvalid hn hs (isEmpty_rulesFor_iff.1 hempty)⟩
      · exact .inl ⟨_, rfl⟩
    · next hn =>
      split
      · next hempty =>
        refine .inr ⟨_, .noWord hvalid (by simpa using hn) hs fun word hword => ?_⟩
        by_contra hne
        obtain ⟨rule, hr, hlhs⟩ := (exists_rule_unitFreePart_iff hg hs).2 ⟨word, hword, hne⟩
        exact isEmpty_rulesFor_iff.1 hempty rule hr hlhs
      · exact .inl ⟨_, rfl⟩

/-- Normalization ends in an error exactly in the case of that error. -/
theorem outcome_normalize_eq_error_iff : g.normalize.outcome = .error e ↔ g.Fails e := by
  refine ⟨fun h => ?_, Fails.outcome_normalize⟩
  rcases exists_normalized_or_fails g with ⟨n, hn⟩ | ⟨e', he'⟩
  · rw [h] at hn
    exact absurd hn (by simp)
  · rw [he'.outcome_normalize] at h
    rwa [← Except.error.inj h]

/-- Normalization succeeds exactly for a valid grammar that has a rule for its start symbol, if it
is in normal form, and that derives a word which is not empty, if it is not. -/
theorem exists_normalized_iff :
    (∃ n, g.normalize.outcome = .ok n) ↔
      g.validate = .ok () ∧
        (g.isNormal = true ∧ (∃ rule ∈ g.rules, g.start = some rule.lhs) ∨
          g.isNormal = false ∧ ∃ word, g.Language word ∧ word ≠ []) := by
  constructor
  · rintro ⟨n, hn⟩
    obtain ⟨start, hg, hs, -⟩ := exists_of_normalize hn
    have hvalid := validate_eq_ok_iff.2 hg
    -- Otherwise one of the cases would hold, and there would be its error.
    have hfails : ∀ e, ¬g.Fails e := fun e he => by
      rw [he.outcome_normalize] at hn
      exact absurd hn (by simp)
    refine ⟨hvalid, ?_⟩
    cases hnormal : g.isNormal with
    | true =>
      refine .inl ⟨rfl, ?_⟩
      by_contra hnone
      refine hfails _ (.noRule hvalid hnormal hs fun rule hr hlhs => hnone ⟨rule, hr, ?_⟩)
      rw [hs, hlhs]
    | false =>
      refine .inr ⟨rfl, ?_⟩
      by_contra hnone
      refine hfails _ (.noWord hvalid hnormal hs fun word hword => ?_)
      by_contra hne
      exact hnone ⟨word, hword, hne⟩
  · rintro ⟨hvalid, hleft⟩
    rcases exists_normalized_or_fails g with hn | ⟨e, he⟩
    · exact hn
    · exfalso
      cases he with
      | missingStart hs =>
        rw [validate_eq_missingStart_iff.2 hs] at hvalid
        exact absurd hvalid (by simp)
      | invalidGrammar _ hfault =>
        rw [hfault] at hvalid
        exact absurd hvalid (by simp)
      | noRule _ hnormal hs hrules =>
        rcases hleft with ⟨-, rule, hr, hstart⟩ | ⟨hnot, -⟩
        · exact hrules rule hr (Option.some.inj (hstart.symm.trans hs))
        · exact absurd (hnormal.symm.trans hnot) (by simp)
      | noWord _ hnot _ hwords =>
        rcases hleft with ⟨hnormal, -⟩ | ⟨-, word, hword, hne⟩
        · exact absurd (hnormal.symm.trans hnot) (by simp)
        · exact hne (hwords word hword)

end Grammar

/-- Making a parser fails only if the grammar cannot be normalized. -/
theorem Parser.ofGrammar_ne_recognize {g : Grammar} (hw : g.WellFormed) (policy : TracePolicy)
    (e : RecognizerError) : (ofGrammar g policy).outcome ≠ .error (.recognize e) := by
  intro h
  rw [ofGrammar, Run.outcome_bind, Run.mapError] at h
  cases hn : g.normalize.outcome with
  | error e' =>
    rw [hn] at h
    exact absurd h (by simp [Except.bind])
  | ok n =>
    obtain ⟨r, hr⟩ := Grammar.exists_recognizer_normalized hw hn
    rw [hn] at h
    simp only [Run.mapError_ok, Except.bind, Run.outcome_bind, Run.outcome_ofExcept, hr,
      Run.outcome_emit, Run.outcome_pure] at h
    exact absurd h (by simp)

namespace Grammar

variable {g : Grammar}

/-- The errors of normalizing a grammar that is built are exact. There is no start symbol, or there
is another fault; a valid grammar in normal form has no rule for its start symbol, and one that is
not in normal form derives no word but the empty one; in all other cases normalization succeeds.
Nulling and unit rules are never the reason, and a parser never fails for its recognizer. -/
theorem normalize_errors_exact (hg : g.Built) :
    (g.normalize.outcome = .error .missingStart ↔ g.start = none) ∧
    (∀ fault, g.normalize.outcome = .error (.invalidGrammar fault) ↔
      g.start ≠ none ∧ g.validate = .error fault) ∧
    (g.validate = .ok () → g.isNormal = true → ∀ s,
      g.normalize.outcome = .error (.noStartRule s) ↔
        g.start = some s ∧ ∀ rule ∈ g.rules, rule.lhs ≠ s) ∧
    (g.validate = .ok () → g.isNormal = false → ∀ s,
      g.normalize.outcome = .error (.noStartRule s) ↔
        g.start = some s ∧ ∀ word, g.Language word → word = []) ∧
    ((∃ n, g.normalize.outcome = .ok n) ↔
      g.validate = .ok () ∧
        (g.isNormal = true ∧ (∃ rule ∈ g.rules, g.start = some rule.lhs) ∨
          g.isNormal = false ∧ ∃ word, g.Language word ∧ word ≠ [])) ∧
    (∀ lhs, g.normalize.outcome ≠ .error (.nullingRule lhs)) ∧
    (∀ lhs target, g.normalize.outcome ≠ .error (.unitRule lhs target)) ∧
    ∀ policy e, (Parser.ofGrammar g policy).outcome ≠ .error (.recognize e) := by
  simp only [outcome_normalize_eq_error_iff, ne_eq]
  refine ⟨⟨?_, .missingStart⟩, fun fault => ⟨?_, fun ⟨hs, hfault⟩ => .invalidGrammar hs hfault⟩,
    fun hvalid hn s => ⟨?_, fun ⟨hs, hrules⟩ => .noRule hvalid hn hs hrules⟩,
    fun hvalid hn s => ⟨?_, fun ⟨hs, hwords⟩ => .noWord hvalid hn hs hwords⟩,
    exists_normalized_iff, ?_, ?_, Parser.ofGrammar_ne_recognize hg.wellFormed⟩
  · intro h
    cases h with
    | missingStart hs => exact hs
  · intro h
    cases h with
    | invalidGrammar hs hfault => exact ⟨hs, hfault⟩
  · intro h
    cases h with
    | noRule _ _ hs hrules => exact ⟨hs, hrules⟩
    | noWord _ hnot _ _ => exact absurd (hn.symm.trans hnot) (by simp)
  · intro h
    cases h with
    | noRule _ hnormal _ _ => exact absurd (hnormal.symm.trans hn) (by simp)
    | noWord _ _ hs hwords => exact ⟨hs, hwords⟩
  · intro lhs h
    cases h
  · intro lhs target h
    cases h

/-- The grammar with the only rule `S → ε`. -/
def vanishing : Grammar :=
  Grammar.empty
    |>.addVariable (some "S")
    |>.setStart ⟨0⟩
    |>.addRule ⟨⟨0⟩, []⟩

theorem vanishing_built : vanishing.Built := .addRule _ (.setStart _ (.addVariable _ .empty))

/-- A grammar without start symbol, one that derives the empty word alone and one that derives
others. -/
theorem normalize_errors_exact_vanishing :
    Grammar.empty.normalize.outcome = .error .missingStart ∧
      vanishing.normalize.outcome = .error (.noStartRule ⟨0⟩) ∧
      ∃ n, pairing.normalize.outcome = .ok n := by
  obtain ⟨hmissing, -⟩ := normalize_errors_exact .empty
  obtain ⟨-, -, -, hvanishing, -⟩ := normalize_errors_exact vanishing_built
  obtain ⟨-, -, -, -, hpairing, -⟩ := normalize_errors_exact pairing_built
  refine ⟨hmissing.2 rfl, ?_, ?_⟩
  · refine (hvanishing (by decide +kernel) (by decide +kernel) ⟨0⟩).2 ⟨rfl, ?_⟩
    rintro word ⟨start, -, rule, hr, -, hspells⟩
    obtain rfl := List.mem_singleton.1 hr
    exact spells_nil_iff.1 hspells
  · refine hpairing.2 ⟨by decide +kernel, .inr ⟨by decide +kernel, ?_⟩⟩
    exact ⟨_, pairing_language_ab, List.cons_ne_nil _ _⟩

end Grammar

end ContextFree
