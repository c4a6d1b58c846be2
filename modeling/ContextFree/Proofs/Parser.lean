import ContextFree.Parser
import ContextFree.Proofs.Chart.Recognition
import ContextFree.Proofs.Normal.Normalized

/-!
# Parsers are right

The parts are put together. Normalization keeps the language but for the empty word
(`Grammar.isNormal_and_language_normalize`), and every derivation over the normalized grammar is
traced back to one over the given grammar (`Grammar.exists_traceBack_normalize`). What a parser is
made of fits its grammar (`Parser.Prepared`), so that it decides the language of the grammar
(`Parser.recognize_decides_language`) and finds a derivation of every word of it
(`Parser.parse_finds_derivation`).
-/

namespace ContextFree

namespace Grammar

variable {g : Grammar} {n : Normalized} {start : Symbol} {word : List Symbol}

/-- The language of a grammar with a variable for its start symbol is what that variable spells. -/
theorem language_iff_spells (hs : g.start = some start) (hv : g.isTerminal start = false) :
    g.Language word ↔ g.Spells [start] word := by
  rw [← yields_iff_spells hv, Language]
  constructor
  · rintro ⟨s, hs', hy⟩
    rwa [Option.some.inj (hs'.symm.trans hs)] at hy
  · intro hy
    exact ⟨start, hs, hy⟩

/-- What the start symbol has a derivation of is in the language. -/
theorem LeftmostDerivation.language {d : Derivation} (h : g.LeftmostDerivation d start word)
    (hs : g.start = some start) (hv : g.isTerminal start = false) : g.Language word :=
  (language_iff_spells hs hv).2 (leftmostDerivation_iff.1 h).spells

/-! ## Two grammars -/

/-- The grammar with the rules `S → A S b`, `S → A`, `A → S`, `A → a` and `A → ε`. All its variables
are nullable, and its unit rules make a cycle. -/
def pairing : Grammar :=
  Grammar.empty
    |>.addVariable (some "S")
    |>.addVariable (some "A")
    |>.addTerminal "a"
    |>.addTerminal "b"
    |>.setStart ⟨0⟩
    |>.addRule ⟨⟨0⟩, [⟨1⟩, ⟨0⟩, ⟨3⟩]⟩
    |>.addRule ⟨⟨0⟩, [⟨1⟩]⟩
    |>.addRule ⟨⟨1⟩, [⟨0⟩]⟩
    |>.addRule ⟨⟨1⟩, [⟨2⟩]⟩
    |>.addRule ⟨⟨1⟩, []⟩

theorem pairing_built : pairing.Built :=
  .addRule _ (.addRule _ (.addRule _ (.addRule _ (.addRule _ (.setStart _ (.addTerminal _
    (.addTerminal _ (.addVariable _ (.addVariable _ .empty)))))))))

/-- The word `ab` is in the language: `S → A S b`, `A → a`, `S → A`, `A → ε`. -/
theorem pairing_language_ab : pairing.Language [⟨2⟩, ⟨3⟩] := by
  have hderivation : pairing.LeftmostDerivation
      [⟨⟨0⟩, [⟨1⟩, ⟨0⟩, ⟨3⟩]⟩, ⟨⟨1⟩, [⟨2⟩]⟩, ⟨⟨0⟩, [⟨1⟩]⟩, ⟨⟨1⟩, []⟩] ⟨0⟩ [⟨2⟩, ⟨3⟩] := by
    decide +kernel
  exact hderivation.language rfl rfl

/-- The grammar with the only rule `S → a`, which is in normal form. -/
def single : Grammar :=
  Grammar.empty
    |>.addVariable (some "S")
    |>.addTerminal "a"
    |>.setStart ⟨0⟩
    |>.addRule ⟨⟨0⟩, [⟨1⟩]⟩

theorem single_built : single.Built :=
  .addRule _ (.setStart _ (.addTerminal _ (.addVariable _ .empty)))

/-! ## Normalization -/

/-- Normalization keeps the language but for the empty word. -/
theorem language_normalized_iff (hw : g.WellFormed) (hn : g.normalize.outcome = .ok n) :
    n.grammar.Language word ↔ g.Language word ∧ word ≠ [] := by
  obtain ⟨-, hg, -⟩ := exists_of_normalize hn
  obtain ⟨start, hs, -, hv⟩ := hg.start
  obtain ⟨hterminal, hstart, -⟩ := normalized_facts hw hn
  rw [language_iff_spells (hstart.trans hs) (hterminal ▸ hv), language_iff_spells hs hv,
    spells_normalized_iff hw hn hs]

/-- The result of normalization has a recognizer. -/
theorem exists_recognizer_normalized (hw : g.WellFormed) (hn : g.normalize.outcome = .ok n) :
    ∃ r, Recognizer.ofGrammar n.grammar = .ok r := by
  obtain ⟨-, hg, -⟩ := exists_of_normalize hn
  obtain ⟨start, hs, -, -⟩ := hg.start
  have hstart : n.grammar.start = some start := (normalized_facts hw hn).2.1.trans hs
  exact ⟨⟨start, n.grammar.rules.filterMap n.grammar.normalRule?⟩,
    Recognizer.ofGrammar_eq_ok_iff.2 ⟨hstart, isNormal_normalized hw hn, rfl⟩⟩

/-- Normalizing a grammar that is built, with or without going through the stages, gives a grammar
in Chomsky normal form which a recognizer can be made for, and whose language is that of the given
grammar without the empty word. -/
theorem isNormal_and_language_normalize (hg : g.Built) (hn : g.normalize.outcome = .ok n) :
    n.grammar.isNormal = true ∧ (∃ r, Recognizer.ofGrammar n.grammar = .ok r) ∧
      ∀ word, n.grammar.Language word ↔ g.Language word ∧ word ≠ [] :=
  ⟨isNormal_normalized hg.wellFormed hn, exists_recognizer_normalized hg.wellFormed hn,
    fun _ => language_normalized_iff hg.wellFormed hn⟩

/-- Both ways of normalizing occur. -/
theorem isNormal_and_language_normalize_pairing_single :
    (∃ n, pairing.normalize.outcome = .ok n ∧ n.shortCircuited = false ∧
        n.grammar.isNormal = true ∧ (∃ r, Recognizer.ofGrammar n.grammar = .ok r) ∧
        ∀ word, n.grammar.Language word ↔ pairing.Language word ∧ word ≠ []) ∧
      ∃ n, single.normalize.outcome = .ok n ∧ n.shortCircuited = true ∧
        n.grammar.isNormal = true ∧ (∃ r, Recognizer.ofGrammar n.grammar = .ok r) ∧
        ∀ word, n.grammar.Language word ↔ single.Language word ∧ word ≠ [] := by
  have hfull : pairing.normalize.outcome.toOption.any (fun n => !n.shortCircuited) = true := by
    decide +kernel
  have hshort : single.normalize.outcome.toOption.any (fun n => n.shortCircuited) = true := by
    decide +kernel
  obtain ⟨n, hn, hpath⟩ := Run.exists_eq_ok_of_any hfull
  obtain ⟨n', hn', hpath'⟩ := Run.exists_eq_ok_of_any hshort
  exact ⟨⟨n, hn, by simpa using hpath, isNormal_and_language_normalize pairing_built hn⟩,
    n', hn', hpath', isNormal_and_language_normalize single_built hn'⟩

/-- A derivation over the normalized grammar from a variable of the given one is traced back,
whatever the policy. -/
theorem exists_traceBack (hw : g.WellFormed) (hn : g.normalize.outcome = .ok n) {s : Symbol}
    (hs : s ∈ g.variableList) {t : Derivation} (ht : n.grammar.Derives t [s] word) :
    ∃ d, (∀ policy, (Tracer.traceBack ⟨g, n.history, policy⟩ t).outcome = .ok d) ∧
      g.LeftmostDerivation d s word := by
  obtain ⟨useful, nullingFree, unitFree, hback⟩ := exists_leadsBack hw hn
  obtain ⟨hknows, hv⟩ := mem_variableList_iff.1 hs
  obtain ⟨d, hd, htrace⟩ := hback.exists_traceBack hw (knows_iff.1 hknows) hv ht
  exact ⟨d, htrace, leftmostDerivation_iff.2 hd⟩

/-- Every complete leftmost derivation over the normalized grammar from a variable of the given one
is traced back, under either policy and with the same result, to a complete leftmost derivation of
the same word from that variable over the given grammar. -/
theorem exists_traceBack_normalize (hg : g.Built) (hn : g.normalize.outcome = .ok n)
    {s : Symbol} (hs : s ∈ g.variableList) {t : Derivation}
    (ht : n.grammar.LeftmostDerivation t s word) :
    ∃ d, (Tracer.traceBack ⟨g, n.history, .strict⟩ t).outcome = .ok d ∧
      (Tracer.traceBack ⟨g, n.history, .bestEffort⟩ t).outcome = .ok d ∧
      g.LeftmostDerivation d s word := by
  obtain ⟨d, htrace, hd⟩ :=
    exists_traceBack hg.wellFormed hn hs (leftmostDerivation_iff.1 ht)
  exact ⟨d, htrace .strict, htrace .bestEffort, hd⟩

/-- A derivation of `aabb` over the normalized grammar, where `X₁` stands for `A S` and `X₂` for
`b`: `S → X₁ X₂`, `X₁ → A S`, `A → a`, then `S → S X₂`, from which `A` was deleted, and `S → a`,
which stands for `S → A` and `A → a`. -/
def pairingTrace : Derivation :=
  [⟨⟨0⟩, [⟨4⟩, ⟨5⟩]⟩, ⟨⟨4⟩, [⟨1⟩, ⟨0⟩]⟩, ⟨⟨1⟩, [⟨2⟩]⟩, ⟨⟨0⟩, [⟨0⟩, ⟨5⟩]⟩, ⟨⟨0⟩, [⟨2⟩]⟩,
    ⟨⟨5⟩, [⟨3⟩]⟩, ⟨⟨5⟩, [⟨3⟩]⟩]

theorem exists_traceBack_normalize_pairing :
    ∃ n, pairing.normalize.outcome = .ok n ∧
      ∃ d, (Tracer.traceBack ⟨pairing, n.history, .strict⟩ pairingTrace).outcome = .ok d ∧
        (Tracer.traceBack ⟨pairing, n.history, .bestEffort⟩ pairingTrace).outcome = .ok d ∧
        pairing.LeftmostDerivation d ⟨0⟩ [⟨2⟩, ⟨2⟩, ⟨3⟩, ⟨3⟩] := by
  have hcheck : pairing.normalize.outcome.toOption.any (fun n => decide
      (n.grammar.LeftmostDerivation pairingTrace ⟨0⟩ [⟨2⟩, ⟨2⟩, ⟨3⟩, ⟨3⟩])) = true := by
    decide +kernel
  obtain ⟨n, hn, ht⟩ := Run.exists_eq_ok_of_any hcheck
  exact ⟨n, hn, exists_traceBack_normalize pairing_built hn (by decide +kernel)
    (of_decide_eq_true ht)⟩

end Grammar

/-! ## Parsing -/

namespace Parser

variable {g : Grammar} {p : Parser} {policy : TracePolicy} {word : List Symbol}

/-- The chart of an input that is not empty can be filled. -/
theorem outcome_chart (p : Parser) (hw : word ≠ []) :
    (p.chart word).outcome = .ok (p.recognizer.chart word) := by
  rw [chart, Run.mapError, p.recognizer.outcome_recognize hw]
  rfl

/-- What a parser is made of fits the grammar it was made for. -/
structure Prepared (g : Grammar) (p : Parser) : Prop where
  /-- The grammar is kept. -/
  grammar : p.grammar = g
  /-- The grammar was normalized. -/
  normalized : g.normalize.outcome = .ok p.normalized
  /-- The recognizer has the normalized grammar. -/
  recognizer : p.recognizer.Represents p.normalized.grammar
  /-- The oracle tells the truth about the empty word. -/
  oracle : p.oracle = .nullableStart

/-- A parser that was made fits its grammar. -/
theorem prepared_of_ofGrammar (h : (ofGrammar g policy).outcome = .ok p) : p.Prepared g := by
  unfold ofGrammar at h
  obtain ⟨n, hnormalize, h⟩ := Run.bind_eq_ok_iff.1 h
  obtain ⟨r, hrecognizer, h⟩ := Run.bind_eq_ok_iff.1 h
  obtain ⟨_, -, h⟩ := Run.bind_eq_ok_iff.1 h
  obtain rfl := Except.ok.inj h
  have hn : g.normalize.outcome = .ok n := Run.mapError_eq_ok_iff.1 hnormalize
  have hr : Recognizer.ofGrammar n.grammar = .ok r := Run.mapError_eq_ok_iff.1 hrecognizer
  exact ⟨rfl, hn, Recognizer.ofGrammar_eq_ok_iff.1 hr, rfl⟩

namespace Prepared

/-- The recognizer starts from the start symbol of the grammar, which is a variable of it. -/
theorem start_mem (hp : p.Prepared g) (hg : g.WellFormed) :
    g.start = some p.recognizer.start ∧ p.recognizer.start ∈ g.variableList := by
  obtain ⟨-, hvalid, -⟩ := Grammar.exists_of_normalize hp.normalized
  obtain ⟨start, hs, hknows, hv⟩ := hvalid.start
  have hstart := (Grammar.normalized_facts hg hp.normalized).2.1.symm.trans hp.recognizer.start
  obtain rfl := Option.some.inj (hs.symm.trans hstart)
  exact ⟨hs, Grammar.mem_variableList_iff.2 ⟨hknows, hv⟩⟩

/-- An input that is not empty is accepted with a derivation from the start symbol over the
normalized grammar, or it is not in the language. -/
theorem trace_or_not_language (hp : p.Prepared g) (hg : g.WellFormed) (hw : word ≠ []) :
    (p.recognizer.chart word).accepted = true ∧ g.Language word ∧
        (∃ t, (p.recognizer.chart word).trace = some t ∧
          p.normalized.grammar.Derives t [p.recognizer.start] word) ∨
      (p.recognizer.chart word).accepted = false ∧ ¬g.Language word ∧
        (p.recognizer.chart word).trace = none := by
  obtain ⟨hterminal, hstart, hl⟩ := Grammar.normalized_facts hg hp.normalized
  have hv : g.isTerminal p.recognizer.start = false :=
    (Grammar.mem_variableList_iff.1 (hp.start_mem hg).2).2
  have hlanguage : p.normalized.grammar.Language word ↔ g.Language word ∧ word ≠ [] :=
    Grammar.language_normalized_iff hg hp.normalized
  rw [Grammar.language_iff_spells hp.recognizer.start (hterminal ▸ hv)] at hlanguage
  rcases hp.recognizer.trace_spec hl hw with ⟨hacc, t, ht, hd⟩ | ⟨hacc, ht, hy⟩
  · exact .inl ⟨hacc, (hlanguage.1 hd.spells).1, t, ht, hd⟩
  · refine .inr ⟨hacc, fun h => hy ?_, ht⟩
    exact (Grammar.yields_iff_spells (hterminal ▸ hv)).2 (hlanguage.2 ⟨h, hw⟩)

end Prepared

/-- A parser made for a grammar that is built decides its language: every input, whatever symbols it
has, is accepted if it is in the language and rejected otherwise, and there is no error. -/
theorem recognize_decides_language (hg : g.Built) (hp : (ofGrammar g policy).outcome = .ok p)
    (word : List Symbol) :
    (g.Language word → (p.recognize word).outcome = .ok true) ∧
      (¬g.Language word → (p.recognize word).outcome = .ok false) := by
  have hprepared := prepared_of_ofGrammar hp
  by_cases hw : word = []
  · -- The empty input has no chart; the oracle decides it.
    subst hw
    have hdecide : (p.recognize []).outcome = .ok g.startIsNullable := by
      rw [recognize, List.isEmpty_nil, if_pos rfl, Run.outcome_pure, hprepared.oracle,
        hprepared.grammar]
      rfl
    obtain ⟨-, hvalid, -⟩ := Grammar.exists_of_normalize hprepared.normalized
    rw [hdecide, ← Grammar.startIsNullable_iff hvalid]
    cases g.startIsNullable with
    | true => simp
    | false => simp
  · have hdecide : (p.recognize word).outcome = .ok (p.recognizer.chart word).accepted := by
      have hempty : word.isEmpty = false := by simpa using hw
      rw [recognize, hempty, if_neg Bool.false_ne_true, Run.outcome_bind,
        outcome_chart p hw]
      rfl
    rw [hdecide]
    rcases hprepared.trace_or_not_language hg.wellFormed hw with ⟨hacc, hin, -⟩ | ⟨hacc, hout, -⟩
    · rw [hacc]
      exact ⟨fun _ => rfl, fun hout => absurd hin hout⟩
    · rw [hacc]
      exact ⟨fun hin => absurd hin hout, fun _ => rfl⟩

/-- The word `ab` and the empty word are accepted, and the variable `S` for an input is not. -/
theorem recognize_decides_language_pairing :
    ∃ p, (ofGrammar Grammar.pairing .strict).outcome = .ok p ∧
      (p.recognize [⟨2⟩, ⟨3⟩]).outcome = .ok true ∧ (p.recognize []).outcome = .ok true ∧
      (p.recognize [⟨0⟩]).outcome = .ok false := by
  have hcheck : (ofGrammar Grammar.pairing .strict).outcome.toOption.any
      (fun _ => true) = true := by
    decide +kernel
  obtain ⟨p, hp, -⟩ := Run.exists_eq_ok_of_any hcheck
  have hdecides := recognize_decides_language Grammar.pairing_built hp
  have hnone : Grammar.pairing.LeftmostDerivation [⟨⟨0⟩, [⟨1⟩]⟩, ⟨⟨1⟩, []⟩] ⟨0⟩ [] := by
    decide +kernel
  refine ⟨p, hp, (hdecides _).1 Grammar.pairing_language_ab,
    (hdecides _).1 (hnone.language rfl rfl), (hdecides _).2 ?_⟩
  -- A word of the language has no variables.
  rintro ⟨start, -, rule, -, -, hspells⟩
  exact absurd (hspells.terminals ⟨0⟩ (by simp)) (by decide +kernel)

/-- A parser made for a grammar that is built, with either policy, finds a derivation of every input
in the language that is not empty, and none for any other. The derivation is made of rules of the
given grammar, each of which applies to the leftmost variable in turn, and ends in the input. -/
theorem parse_finds_derivation (hg : g.Built) (hp : (ofGrammar g policy).outcome = .ok p)
    (hw : word ≠ []) :
    (g.Language word → ∃ d start, (p.parse word).outcome = .ok (some d) ∧ g.start = some start ∧
        (∀ rule ∈ d, rule ∈ g.rules) ∧ Derivation.replay g.isTerminal d [start] = some word) ∧
      (¬g.Language word → (p.parse word).outcome = .ok none) := by
  have hprepared := prepared_of_ofGrammar hp
  have hempty : word.isEmpty = false := by simpa using hw
  rw [parse, hempty, if_neg Bool.false_ne_true, Run.outcome_bind, outcome_chart p hw,
    Except.bind]
  rcases hprepared.trace_or_not_language hg.wellFormed hw with
    ⟨-, hin, t, ht, hd⟩ | ⟨-, hout, ht⟩
  · refine ⟨fun _ => ?_, fun hout => absurd hin hout⟩
    obtain ⟨hs, hmem⟩ := hprepared.start_mem hg.wellFormed
    obtain ⟨d, htrace, hderivation⟩ :=
      Grammar.exists_traceBack hg.wellFormed hprepared.normalized hmem hd
    refine ⟨d, p.recognizer.start, ?_, hs, hderivation.rules, hderivation.replays⟩
    rw [ht]
    dsimp only
    rw [Run.outcome_bind, Run.mapError, hprepared.grammar, htrace]
    rfl
  · refine ⟨fun hin => absurd hin hout, fun _ => ?_⟩
    rw [ht]
    rfl

/-- A derivation of `ab` is found with the policy that keeps going. -/
theorem parse_finds_derivation_pairing :
    ∃ p, (ofGrammar Grammar.pairing .bestEffort).outcome = .ok p ∧
      ∃ d start, (p.parse [⟨2⟩, ⟨3⟩]).outcome = .ok (some d) ∧
        Grammar.pairing.start = some start ∧ (∀ rule ∈ d, rule ∈ Grammar.pairing.rules) ∧
        Derivation.replay Grammar.pairing.isTerminal d [start] = some [⟨2⟩, ⟨3⟩] := by
  have hcheck : (ofGrammar Grammar.pairing .bestEffort).outcome.toOption.any
      (fun _ => true) = true := by
    decide +kernel
  obtain ⟨p, hp, -⟩ := Run.exists_eq_ok_of_any hcheck
  have hfinds := parse_finds_derivation Grammar.pairing_built hp (List.cons_ne_nil ⟨2⟩ [⟨3⟩])
  exact ⟨p, hp, hfinds.1 Grammar.pairing_language_ab⟩

end Parser

end ContextFree
