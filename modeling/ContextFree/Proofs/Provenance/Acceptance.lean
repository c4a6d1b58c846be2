import ContextFree.Proofs.Parser

/-!
# What tracing back accepts

Tracing back is handed a list of rules that need be no derivation at all. Where the history of a
normalization has a record of a split, the tree of the rules is rebuilt and compared with the splits
node by node, so that without leave to keep rules nothing is accepted but a complete derivation over
the normalized grammar from a symbol of the given one (`Grammar.traceBack_strict_ok_iff`). The
record of the elimination of nulling rules also calls for a tree, and rules without one are refused.
A history with neither record rebuilds no tree, and then rules that are no derivation come back as
they are, but for their units (`Grammar.traceBack_of_not_complete`).
-/

namespace ContextFree.Grammar

variable {g : Grammar} {n : Normalized} {t : Derivation}

/-- Expanding the units of a history makes no derivation of rules that are none. -/
theorem complete_of_expandUnits (hn : g.normalize.outcome = .ok n) {units : UnitMap}
    (hu : n.history.units = some units)
    (h : Derivation.Complete g.isTerminal (expandUnits units t)) :
    Derivation.Complete g.isTerminal t := by
  obtain ⟨before, hterminal, hchains⟩ := exists_chains_of_units hn hu
  rw [← hterminal] at h ⊢
  exact hchains.complete_expandUnits_iff.1 h

/-- Rules that are no complete derivation are reported as such exactly when the history has a record
of a split or of the elimination of nulling rules, whatever the policy. With any other history, that
of a grammar in normal form among them, they are accepted: what comes back are the rules themselves
with their units expanded, unless the policy refuses a rule of them that is unknown. -/
theorem traceBack_of_not_complete (hn : g.normalize.outcome = .ok n)
    (ht : ¬Derivation.Complete g.isTerminal t) (policy : TracePolicy) :
    ((∃ position, (Tracer.traceBack ⟨g, n.history, policy⟩ t).outcome =
        .error (.malformed position)) ↔
      n.history.split.isSome = true ∨ n.history.nulling.isSome = true) ∧
    (n.history.split = none → n.history.nulling = none →
      ∀ d, (Tracer.traceBack ⟨g, n.history, policy⟩ t).outcome = .ok d ↔
        d = n.history.units.elim t (fun units => expandUnits units t) ∧
          (policy = .bestEffort ∨ ∀ rule ∈ d, rule ∈ g.rules)) := by
  refine ⟨⟨fun ⟨position, h⟩ => ?_, fun hr => ?_⟩, fun hs hnull d => ?_⟩
  · rw [Tracer.traceBack_eq_malformed_iff] at h
    by_contra hnone
    rw [not_or, Option.not_isSome_iff_eq_none, Option.not_isSome_iff_eq_none] at hnone
    rw [Tracer.undo_eq_pure hnone.1 hnone.2, Run.outcome_pure] at h
    exact absurd h (by simp)
  · obtain ⟨position, h⟩ := Tracer.exists_undo_eq_error (t := ⟨g, n.history, policy⟩)
      (fun units hu d hd => complete_of_expandUnits hn hu hd) ht hr
    exact ⟨position, Tracer.traceBack_eq_malformed_iff.2 h⟩
  · rw [Tracer.traceBack_eq_ok_iff, Tracer.undo_eq_pure hs hnull, Run.outcome_pure,
      Except.ok.injEq, eq_comm]

/-- A derivation that breaks off is refused where stages left their records, and two derivations one
after the other are accepted where none did. -/
theorem traceBack_of_not_complete_pairing_single :
    (∃ n, pairing.normalize.outcome = .ok n ∧
      ∃ position, (Tracer.traceBack ⟨pairing, n.history, .bestEffort⟩
        pairingTrace.dropLast).outcome = .error (.malformed position)) ∧
    ∃ n, single.normalize.outcome = .ok n ∧
      (Tracer.traceBack ⟨single, n.history, .strict⟩
        [⟨⟨0⟩, [⟨1⟩]⟩, ⟨⟨0⟩, [⟨1⟩]⟩]).outcome = .ok [⟨⟨0⟩, [⟨1⟩]⟩, ⟨⟨0⟩, [⟨1⟩]⟩] := by
  have hrecorded : pairing.normalize.outcome.toOption.any
      (fun n => n.history.split.isSome) = true := by
    decide +kernel
  have hempty : single.normalize.outcome.toOption.any
      (fun n => n.history.split.isNone && n.history.nulling.isNone && n.history.units.isNone) =
        true := by
    decide +kernel
  obtain ⟨n, hn, hsplit⟩ := Run.exists_eq_ok_of_any hrecorded
  obtain ⟨n', hn', hnone⟩ := Run.exists_eq_ok_of_any hempty
  rw [Bool.and_eq_true, Bool.and_eq_true, Option.isNone_iff_eq_none, Option.isNone_iff_eq_none,
    Option.isNone_iff_eq_none] at hnone
  obtain ⟨⟨hs, hnull⟩, hunits⟩ := hnone
  refine ⟨⟨n, hn, (traceBack_of_not_complete hn (by decide +kernel) _).1.2 (.inl hsplit)⟩,
    n', hn', ?_⟩
  refine ((traceBack_of_not_complete hn' (by decide +kernel) _).2 hs hnull _).2 ⟨?_, .inr ?_⟩
  · rw [hunits]
    rfl
  · decide +kernel

/-- The grammar with the rules `S → A` and `A → a`, whose only record is that `S → a` stands for
both. -/
def detour : Grammar :=
  Grammar.empty
    |>.addVariable (some "S")
    |>.addVariable (some "A")
    |>.addTerminal "a"
    |>.setStart ⟨0⟩
    |>.addRule ⟨⟨0⟩, [⟨1⟩]⟩
    |>.addRule ⟨⟨1⟩, [⟨2⟩]⟩

/-- Lists of rules that are no complete derivation, the empty one among them, come back as if they
were, both with no record and with one of unit rules. -/
theorem traceBack_accepts_incomplete :
    (¬Derivation.Complete single.isTerminal [] ∧
      ∃ n, single.normalize.outcome = .ok n ∧
        (Tracer.traceBack ⟨single, n.history, .strict⟩ []).outcome = .ok []) ∧
    ¬Derivation.Complete detour.isTerminal [⟨⟨0⟩, [⟨2⟩]⟩, ⟨⟨0⟩, [⟨2⟩]⟩] ∧
      ∃ n, detour.normalize.outcome = .ok n ∧
        (Tracer.traceBack ⟨detour, n.history, .strict⟩
          [⟨⟨0⟩, [⟨2⟩]⟩, ⟨⟨0⟩, [⟨2⟩]⟩]).outcome =
            .ok [⟨⟨0⟩, [⟨1⟩]⟩, ⟨⟨1⟩, [⟨2⟩]⟩, ⟨⟨0⟩, [⟨1⟩]⟩, ⟨⟨1⟩, [⟨2⟩]⟩] := by
  have hsingle : single.normalize.outcome.toOption.any (fun n =>
      (Tracer.traceBack ⟨single, n.history, .strict⟩ []).outcome.toOption.any
        (decide <| · = [])) = true := by
    decide +kernel
  have hdetour : detour.normalize.outcome.toOption.any (fun n =>
      (Tracer.traceBack ⟨detour, n.history, .strict⟩
        [⟨⟨0⟩, [⟨2⟩]⟩, ⟨⟨0⟩, [⟨2⟩]⟩]).outcome.toOption.any
          (decide <| · = [⟨⟨0⟩, [⟨1⟩]⟩, ⟨⟨1⟩, [⟨2⟩]⟩, ⟨⟨0⟩, [⟨1⟩]⟩, ⟨⟨1⟩, [⟨2⟩]⟩])) = true := by
    decide +kernel
  obtain ⟨n, hn, htrace⟩ := Run.exists_eq_ok_of_any hsingle
  obtain ⟨d, hd, hsame⟩ := Run.exists_eq_ok_of_any htrace
  obtain ⟨n', hn', htrace'⟩ := Run.exists_eq_ok_of_any hdetour
  obtain ⟨d', hd', hsame'⟩ := Run.exists_eq_ok_of_any htrace'
  rw [of_decide_eq_true hsame] at hd
  rw [of_decide_eq_true hsame'] at hd'
  exact ⟨⟨by decide +kernel, n, hn, hd⟩, by decide +kernel, n', hn', hd'⟩

/-! ## With a record of a split -/

/-- Where a split is recorded, what is accepted without leave to keep rules is a complete derivation
over the normalized grammar, from a symbol of the given one. -/
theorem complete_of_traceBack (hw : g.WellFormed) (hn : g.normalize.outcome = .ok n)
    {split : SplitMap} (hs : n.history.split = some split) {d : Derivation}
    (h : (Tracer.traceBack ⟨g, n.history, .strict⟩ t).outcome = .ok d) :
    Derivation.Complete g.isTerminal t ∧ (∀ rule ∈ t, rule ∈ n.grammar.rules) ∧
      ∃ root, t.head? = some root ∧ g.knows root.lhs = true := by
  obtain ⟨before, hconv, hsymbols, hgrammar, rfl⟩ := exists_convertible_of_split hw hn hs
  obtain ⟨hundo, -⟩ := Tracer.traceBack_eq_ok_iff.1 h
  rw [Tracer.undo_eq, hs] at hundo
  obtain ⟨d₁, hsplit, -⟩ := Run.bind_eq_ok_iff.1 hundo
  obtain ⟨hcomplete, hkept⟩ := Tracer.complete_of_undoSplit rfl hsplit
  refine ⟨hcomplete, fun rule hr => ?_, ?_⟩
  · -- No node is kept, so every rule comes from a split.
    rw [← Forest.rules_ofRules g.isTerminal 0 t] at hr
    rcases Forest.mem_region_or_mem_split _ false hkept rule hr with ⟨habsurd, -⟩ | hmem
    · exact absurd habsurd Bool.false_ne_true
    · obtain ⟨origin, split, hget, hrule⟩ := hmem
      rw [hgrammar]
      exact (hconv.mem_and_knows_of_get? hget).1 rule hrule
  · cases t with
    | nil => exact absurd hcomplete (by simp [Derivation.Complete])
    | cons root rest =>
      -- There is no group above the root, so it begins one.
      obtain ⟨origin, horigin⟩ := Forest.exists_origin?_of_kept_eq_nil hkept
      have hknows := (hconv.mem_and_knows_of_get? (Forest.get?_of_origin? horigin)).2 root rfl
      rw [knows_iff, hsymbols] at hknows
      exact ⟨root, rfl, knows_iff.2 hknows⟩

/-- A complete derivation over the normalized grammar, from a symbol of the given one, is accepted
whatever is recorded. -/
theorem exists_traceBack_of_complete (hw : g.WellFormed) (hn : g.normalize.outcome = .ok n)
    (ht : Derivation.Complete g.isTerminal t) (hr : ∀ rule ∈ t, rule ∈ n.grammar.rules)
    {root : Rule} (hhead : t.head? = some root) (hk : g.knows root.lhs = true)
    (policy : TracePolicy) :
    ∃ d, (Tracer.traceBack ⟨g, n.history, policy⟩ t).outcome = .ok d := by
  obtain ⟨rest, rfl⟩ := List.head?_eq_some_iff.1 hhead
  obtain ⟨hterminal, -, hl⟩ := normalized_facts hw hn
  have hv := hl root (hr root (by simp))
  obtain ⟨word, hderives⟩ := Derivation.Complete.exists_derives (hterminal ▸ ht) hr hv
  obtain ⟨d, hd, -⟩ :=
    exists_traceBack hw hn (mem_variableList_iff.2 ⟨hk, hterminal ▸ hv⟩) hderives
  exact ⟨d, hd policy⟩

/-- Where normalization recorded a split, tracing back without leave to keep rules accepts exactly
the complete derivations that use only rules of the normalized grammar and begin with a symbol of
the given one. -/
theorem traceBack_strict_ok_iff (hg : g.Built) (hn : g.normalize.outcome = .ok n)
    (hs : n.history.split.isSome = true) (t : Derivation) :
    (∃ d, (Tracer.traceBack ⟨g, n.history, .strict⟩ t).outcome = .ok d) ↔
      Derivation.Complete g.isTerminal t ∧ (∀ rule ∈ t, rule ∈ n.grammar.rules) ∧
        ∃ root, t.head? = some root ∧ g.knows root.lhs = true := by
  obtain ⟨split, hsplit⟩ := Option.isSome_iff_exists.1 hs
  constructor
  · rintro ⟨d, h⟩
    exact complete_of_traceBack hg.wellFormed hn hsplit h
  · rintro ⟨ht, hr, root, hhead, hk⟩
    exact exists_traceBack_of_complete hg.wellFormed hn ht hr hhead hk .strict

/-- A derivation from the start symbol is accepted. One from a variable that splitting introduced is
not, nor is one with a rule of the given grammar that was split. -/
theorem traceBack_strict_ok_iff_pairing :
    ∃ n, pairing.normalize.outcome = .ok n ∧
      (∃ d, (Tracer.traceBack ⟨pairing, n.history, .strict⟩ pairingTrace).outcome = .ok d) ∧
      (¬∃ d, (Tracer.traceBack ⟨pairing, n.history, .strict⟩
        [⟨⟨4⟩, [⟨1⟩, ⟨0⟩]⟩, ⟨⟨1⟩, [⟨2⟩]⟩, ⟨⟨0⟩, [⟨2⟩]⟩]).outcome = .ok d) ∧
      ¬∃ d, (Tracer.traceBack ⟨pairing, n.history, .strict⟩
        [⟨⟨0⟩, [⟨1⟩, ⟨0⟩, ⟨3⟩]⟩, ⟨⟨1⟩, [⟨2⟩]⟩, ⟨⟨0⟩, [⟨2⟩]⟩]).outcome = .ok d := by
  have hcheck : pairing.normalize.outcome.toOption.any (fun n => n.history.split.isSome &&
      decide (∀ rule ∈ pairingTrace, rule ∈ n.grammar.rules) &&
      decide (⟨⟨0⟩, [⟨1⟩, ⟨0⟩, ⟨3⟩]⟩ ∉ n.grammar.rules)) = true := by
    decide +kernel
  obtain ⟨n, hn, hfacts⟩ := Run.exists_eq_ok_of_any hcheck
  rw [Bool.and_eq_true, Bool.and_eq_true, decide_eq_true_eq, decide_eq_true_eq] at hfacts
  obtain ⟨⟨hsplit, hrules⟩, hforeign⟩ := hfacts
  have haccepts := traceBack_strict_ok_iff pairing_built hn hsplit
  refine ⟨n, hn, (haccepts _).2 ⟨by decide +kernel, hrules, _, rfl, by decide +kernel⟩,
    fun h => ?_, fun h => ?_⟩
  · obtain ⟨-, -, root, hroot, hknows⟩ := (haccepts _).1 h
    obtain rfl := Option.some.inj hroot
    exact absurd hknows (by decide +kernel)
  · obtain ⟨-, hr, -⟩ := (haccepts _).1 h
    exact hforeign (hr _ List.mem_cons_self)

end ContextFree.Grammar
