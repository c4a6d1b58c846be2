import ContextFree.Proofs.Grammar.Construction
import ContextFree.Proofs.Provenance.Group
import ContextFree.Proofs.Provenance.Restore
import ContextFree.Proofs.Run
import ContextFree.Provenance.TraceBack

/-!
# Tracing derivations back is right

`History.LeadsBack` states what tracing back needs of a history: each record that is there accounts
for the rules of its stage, and a stage without a record made no rules. Undoing a stage turns a
derivation after it into one of the same word before it (`SplitMap.Explains.exists_undoSplit`,
`UnitMap.Explains.derives_expandUnits`, `NullingMap.Explains.exists_undoNulling`), and so does
undoing all of them. No rule is of unknown provenance in the end, so the policy makes no difference
(`History.LeadsBack.exists_traceBack`). Of any rules whatsoever, `Tracer.traceBack_eq_ok_iff` and
`Tracer.traceBack_eq_malformed_iff` say when they are accepted and when they are reported to be no
derivation; only undoing the split and the elimination of nulling rules look at that
(`Tracer.exists_undo_eq_error`, `Tracer.undo_eq_pure`).
-/

namespace ContextFree

variable {before after : Grammar} {d : Derivation} {s : Symbol} {word : List Symbol} {rule : Rule}

/-- Without an entry in the record, the elimination of nulling rules made no rule. -/
theorem NullingMap.Explains.mem_of_isEmpty {nulling : NullingMap}
    (hn : nulling.Explains before after) (he : nulling.isEmpty = true) (hr : rule ∈ after.rules) :
    rule ∈ before.rules := by
  rcases hn rule hr with ⟨hm, -⟩ | ⟨expansion, hsome, -⟩
  · exact hm
  · rw [Std.TreeMap.getElem?_of_isEmpty he] at hsome
    exact absurd hsome (by simp)

/-- Without an entry in the record, the elimination of unit rules made no rule. -/
theorem UnitMap.Explains.mem_of_isEmpty {units : UnitMap} (hu : units.Explains before after)
    (he : units.isEmpty = true) (hr : rule ∈ after.rules) : rule ∈ before.rules := by
  rcases hu rule hr with ⟨hm, -⟩ | ⟨chain, last, -, hsome, -⟩
  · exact hm
  · rw [Std.TreeMap.getElem?_of_isEmpty he] at hsome
    exact absurd hsome (by simp)

/-- The tree of a derivation from a variable can be built. -/
theorem Tracer.forest_eq_ok (t : Tracer) (ht : t.grammar.isTerminal = after.isTerminal)
    (hv : after.isTerminal s = false) (h : after.Derives d [s] word) :
    (t.forest d).outcome = .ok (Forest.ofRules after.isTerminal 0 d) := by
  rw [forest, Run.outcome_ofExcept, ht, h.ofDerivation_eq_ok hv]
  rfl

/-- There is no tree of rules that are no complete derivation. -/
theorem Tracer.exists_forest_eq_error (t : Tracer)
    (h : ¬Derivation.Complete t.grammar.isTerminal d) :
    ∃ position, (t.forest d).outcome = .error (.malformed position) := by
  rw [forest, Run.outcome_ofExcept]
  cases hforest : Forest.ofDerivation t.grammar.isTerminal d with
  | error position => exact ⟨position, rfl⟩
  | ok forest => exact absurd (Forest.ofDerivation_eq_ok_iff.1 hforest).1 h

/-- Rules of unknown provenance are let pass if there are none or the policy keeps them, and one of
them is refused otherwise. -/
theorem Tracer.unresolvedAll_eq (t : Tracer) (rules : List Rule) :
    (t.policy = .bestEffort ∨ rules = []) ∧ (t.unresolvedAll rules).outcome = .ok () ∨
      t.policy = .strict ∧
        ∃ rule ∈ rules, (t.unresolvedAll rules).outcome = .error (.unresolved rule) := by
  induction rules with
  | nil => exact .inl ⟨.inr rfl, rfl⟩
  | cons rule rules ih =>
    rw [unresolvedAll, Run.outcome_bind, unresolved]
    cases hp : t.policy with
    | strict => exact .inr ⟨rfl, rule, by simp, rfl⟩
    | bestEffort =>
      rcases ih with ⟨-, hok⟩ | ⟨hstrict, -⟩
      · exact .inl ⟨.inl rfl, hok⟩
      · rw [hp] at hstrict
        cases hstrict

/-- Undoing the split succeeds, whatever the policy, and keeps the word. -/
theorem SplitMap.Explains.exists_undoSplit {split : SplitMap} (hm : split.Explains before after)
    (ht : after.isTerminal = before.isTerminal)
    (hb : ∀ s, before.isTerminal s = true → s.id < before.symbols.size)
    (hs : s.id < before.symbols.size) (hv : before.isTerminal s = false)
    (h : after.Derives d [s] word) :
    ∃ d', before.Derives d' [s] word ∧ ∀ t : Tracer, t.grammar.isTerminal = before.isTerminal →
      (t.undoSplit split d).outcome = .ok d' := by
  obtain ⟨d', hgroups, hd'⟩ := hm.derives_groups ht hb hs hv h
  refine ⟨d', hd', fun t hg => ?_⟩
  have hforest := t.forest_eq_ok (hg.trans ht.symm) (ht ▸ hv) h
  rw [ht] at hforest
  have hrules : (d'.map Group.grouped).map Group.rule = d' := by
    rw [List.map_map]
    exact List.map_id d'
  -- Every rule was grouped, so there is none for the policy to decide about.
  have hkept : (d'.map Group.grouped).filterMap Group.kept? = [] := by
    rw [List.filterMap_map, List.filterMap_eq_nil_iff]
    exact fun _ _ => rfl
  rw [Tracer.undoSplit, Run.outcome_bind, hforest]
  simp only [Except.bind, hgroups, hkept, hrules, Tracer.unresolvedAll, Run.outcome_bind,
    Run.outcome_pure]

/-- Undoing the elimination of nulling rules succeeds, whatever the policy, and keeps the word. -/
theorem NullingMap.Explains.exists_undoNulling {nulling : NullingMap}
    (hn : nulling.Explains before after) (ht : after.isTerminal = before.isTerminal)
    (hv : before.isTerminal s = false) (h : after.Derives d [s] word) :
    ∃ d', before.Derives d' [s] word ∧ ∀ t : Tracer, t.grammar.isTerminal = before.isTerminal →
      (t.undoNulling nulling d).outcome = .ok d' := by
  obtain ⟨parts, hrestore, hd'⟩ := hn.derives_restore ht h
  refine ⟨parts.flatten, hd', fun t hg => ?_⟩
  have hforest := t.forest_eq_ok (hg.trans ht.symm) (ht ▸ hv) h
  rw [ht] at hforest
  rw [Tracer.undoNulling, Run.outcome_bind, hforest]
  simp only [Except.bind, hg, hrestore, Run.mapError_ok, Run.outcome_bind, Run.outcome_ofExcept,
    Run.outcome_pure]

/-- Undoing all stages is undoing one after the other. -/
theorem Tracer.undo_eq (t : Tracer) (trace : Derivation) :
    t.undo trace =
      (match t.history.split with
        | some split => t.undoSplit split trace
        | none => pure trace) >>= fun d₁ =>
      let d₂ := match t.history.units with
        | some units => expandUnits units d₁
        | none => d₁
      match t.history.nulling with
        | some nulling => t.undoNulling nulling d₂
        | none => pure d₂ := by
  unfold undo
  cases t.history.split with
  | none => rfl
  | some split => rfl

namespace Tracer

variable {t : Tracer} {trace : Derivation}

/-- Rules that are no complete derivation are refused if undoing some stage needs their tree. -/
theorem exists_undo_eq_error (hu : ∀ units, t.history.units = some units → ∀ d,
      Derivation.Complete t.grammar.isTerminal (expandUnits units d) →
        Derivation.Complete t.grammar.isTerminal d)
    (ht : ¬Derivation.Complete t.grammar.isTerminal trace)
    (hr : t.history.split.isSome = true ∨ t.history.nulling.isSome = true) :
    ∃ position, (t.undo trace).outcome = .error (.malformed position) := by
  rw [undo_eq]
  cases hsplit : t.history.split with
  | some split =>
    obtain ⟨position, hforest⟩ := t.exists_forest_eq_error ht
    refine ⟨position, ?_⟩
    simp only [undoSplit, Run.outcome_bind, hforest, Except.bind]
  | none =>
    -- Without a split to undo, the rules come to the last stage as they are, but for their units.
    obtain ⟨nulling, hnulling⟩ : ∃ nulling, t.history.nulling = some nulling := by
      rw [hsplit] at hr
      exact Option.isSome_iff_exists.1 (hr.resolve_left (by simp))
    have hunits : ¬Derivation.Complete t.grammar.isTerminal (match t.history.units with
        | some units => expandUnits units trace
        | none => trace) := by
      cases hrecord : t.history.units with
      | some units => exact fun h => ht (hu units hrecord trace h)
      | none => exact ht
    obtain ⟨position, hforest⟩ := t.exists_forest_eq_error hunits
    refine ⟨position, ?_⟩
    simp only [hnulling, undoNulling, pure_bind, Run.outcome_bind, hforest, Except.bind]

/-- Undoing the split without leave to keep rules succeeds only on a complete derivation, and only
if every node of its tree belongs to a group. -/
theorem complete_of_undoSplit {split : SplitMap} (hp : t.policy = .strict)
    (h : (t.undoSplit split trace).outcome = .ok d) :
    Derivation.Complete t.grammar.isTerminal trace ∧
      ((Forest.ofRules t.grammar.isTerminal 0 trace).groups split false).filterMap
        Group.kept? = [] := by
  unfold undoSplit at h
  obtain ⟨forest, hforest, h⟩ := Run.bind_eq_ok_iff.1 h
  obtain ⟨_, hpass, -⟩ := Run.bind_eq_ok_iff.1 h
  rw [Tracer.forest, Run.outcome_ofExcept, Run.mapError_eq_ok_iff] at hforest
  obtain ⟨hcomplete, rfl⟩ := Forest.ofDerivation_eq_ok_iff.1 hforest
  refine ⟨hcomplete, ?_⟩
  rcases t.unresolvedAll_eq _ with ⟨hbest | hnone, -⟩ | ⟨-, rule, -, herror⟩
  · rw [hp] at hbest
    cases hbest
  · exact hnone
  · rw [herror] at hpass
    exact absurd hpass (by simp)

/-- Without a stage that needs their tree, rules are taken as they are, but for their units. -/
theorem undo_eq_pure (hs : t.history.split = none) (hn : t.history.nulling = none) :
    t.undo trace = pure (t.history.units.elim trace fun units => expandUnits units trace) := by
  rw [undo_eq, hs, hn, pure_bind]
  cases t.history.units with
  | some units => rfl
  | none => rfl

/-- Tracing back ends with what undoing the stages leaves, unless the policy refuses a rule of it.
-/
theorem outcome_traceBack (t : Tracer) (trace : Derivation) :
    (t.traceBack trace).outcome = (t.undo trace).outcome.bind fun d =>
      (t.unresolvedAll (d.filter fun rule => !t.grammar.contains rule)).outcome.bind
        fun _ => .ok d := by
  rw [traceBack, Run.outcome_bind]
  refine congrArg _ (funext fun d => ?_)
  rw [Run.outcome_bind]
  rfl

/-- Tracing back succeeds exactly when undoing the stages does and the rules in the end are known or
the policy keeps those that are not. -/
theorem traceBack_eq_ok_iff :
    (t.traceBack trace).outcome = .ok d ↔
      (t.undo trace).outcome = .ok d ∧
        (t.policy = .bestEffort ∨ ∀ rule ∈ d, rule ∈ t.grammar.rules) := by
  have hall : ∀ d : Derivation, d.filter (fun rule => !t.grammar.contains rule) = [] ↔
      ∀ rule ∈ d, rule ∈ t.grammar.rules := fun d => by
    simp [List.filter_eq_nil_iff, Grammar.contains]
  rw [outcome_traceBack]
  cases (t.undo trace).outcome with
  | error e => simp [Except.bind]
  | ok d' =>
    rw [Except.bind]
    rcases t.unresolvedAll_eq (d'.filter fun rule => !t.grammar.contains rule) with
      ⟨hpass, hok⟩ | ⟨hstrict, rule, hm, herror⟩
    · rw [hall] at hpass
      rw [hok]
      constructor
      · intro h
        obtain rfl : d' = d := Except.ok.inj h
        exact ⟨rfl, hpass⟩
      · rintro ⟨h, -⟩
        exact h
    · rw [herror]
      refine ⟨fun h => absurd h (by simp [Except.bind]), ?_⟩
      rintro ⟨h, hbest | hknown⟩
      · rw [hstrict] at hbest
        cases hbest
      · obtain rfl : d' = d := Except.ok.inj h
        rw [(hall d').2 hknown] at hm
        exact absurd hm List.not_mem_nil

/-- Tracing back reports a rule out of place exactly when undoing the stages does. -/
theorem traceBack_eq_malformed_iff {position : Nat} :
    (t.traceBack trace).outcome = .error (.malformed position) ↔
      (t.undo trace).outcome = .error (.malformed position) := by
  rw [outcome_traceBack]
  cases (t.undo trace).outcome with
  | error e => rfl
  | ok d' =>
    rw [Except.bind]
    rcases t.unresolvedAll_eq (d'.filter fun rule => !t.grammar.contains rule) with
      ⟨-, hok⟩ | ⟨-, rule, -, herror⟩
    · simp [hok, Except.bind]
    · simp [herror, Except.bind]

end Tracer

/-- What is kept about a stage accounts for the rules after it: a record that is there does, and
without one the stage made no rules. -/
inductive Accounts {α : Type} (explains : α → Grammar → Grammar → Prop) (before after : Grammar) :
    Option α → Prop where
  /-- The record accounts for the rules. -/
  | ofRecord {record : α} (h : explains record before after) :
      Accounts explains before after (some record)
  /-- There is no record and nothing to account for. -/
  | ofSubset (h : ∀ rule ∈ after.rules, rule ∈ before.rules) : Accounts explains before after none

theorem Accounts.explains {α : Type} {explains : α → Grammar → Grammar → Prop} {record : α}
    (h : Accounts explains before after (some record)) : explains record before after := by
  cases h
  assumption

theorem Accounts.subset {α : Type} {explains : α → Grammar → Grammar → Prop}
    (h : Accounts explains before after none) : ∀ rule ∈ after.rules, rule ∈ before.rules := by
  cases h
  assumption

/-- A record accounts for its stage, too, if it is dropped when the stage made no rules. -/
theorem Accounts.ite {α : Type} {explains : α → Grammar → Grammar → Prop} {record : α}
    (h : explains record before after) {dropped : Bool}
    (hd : dropped = true → ∀ rule ∈ after.rules, rule ∈ before.rules) :
    Accounts explains before after (if dropped then none else some record) := by
  cases dropped with
  | false => exact .ofRecord h
  | true => exact .ofSubset (hd rfl)

/-- A record that accounts for the split is kept as the history keeps it. -/
theorem History.accounts_split {split : SplitMap} (h : split.Explains before after)
    (hd : split.isIdentity = true → ∀ rule ∈ after.rules, rule ∈ before.rules) (history : History) :
    Accounts SplitMap.Explains before after (history.setSplit split).split :=
  .ite h hd

/-- A record that accounts for the elimination of unit rules is kept as the history keeps it. -/
theorem History.accounts_units {units : UnitMap} (h : units.Explains before after)
    (history : History) (split : SplitMap) :
    Accounts UnitMap.Explains before after ((history.setUnits units).setSplit split).units :=
  .ite h fun he _ => h.mem_of_isEmpty he

/-- A record that accounts for the elimination of nulling rules is kept as the history keeps it. -/
theorem History.accounts_nulling {nulling : NullingMap} (h : nulling.Explains before after)
    (history : History) (units : UnitMap) (split : SplitMap) :
    Accounts NullingMap.Explains before after
      (((history.setNulling nulling).setUnits units).setSplit split).nulling :=
  .ite h fun he _ => h.mem_of_isEmpty he

/-- A record of a split that is there is the one that was set. -/
theorem History.eq_of_split_setSplit {history : History} {record split : SplitMap}
    (h : (history.setSplit record).split = some split) : split = record :=
  (Option.some.inj (Option.ite_none_left_eq_some.1 h).2).symm

/-- A record of unit rules that is there is the one that was set. -/
theorem History.eq_of_units_setUnits {history : History} {record units : UnitMap}
    {split : SplitMap} (h : ((history.setUnits record).setSplit split).units = some units) :
    units = record :=
  (Option.some.inj (Option.ite_none_left_eq_some.1 h).2).symm

/-- The history leads from the grammar in normal form back to the given one through the grammars
between the stages. -/
structure History.LeadsBack (history : History) (g useful nullingFree unitFree normal : Grammar) :
    Prop where
  /-- The stages keep the terminals. -/
  terminals : useful.isTerminal = g.isTerminal ∧ nullingFree.isTerminal = g.isTerminal ∧
    unitFree.isTerminal = g.isTerminal ∧ normal.isTerminal = g.isTerminal
  /-- No symbols are made before the split. -/
  symbols : unitFree.symbols = g.symbols
  /-- The split is accounted for. -/
  split : Accounts SplitMap.Explains unitFree normal history.split
  /-- The elimination of unit rules is accounted for. -/
  units : Accounts UnitMap.Explains nullingFree unitFree history.units
  /-- The elimination of nulling rules is accounted for. -/
  nulling : Accounts NullingMap.Explains useful nullingFree history.nulling
  /-- Left-hand sides are variables. -/
  lhs : ∀ rule ∈ nullingFree.rules, g.isTerminal rule.lhs = false
  /-- The useful rules are rules of the given grammar. -/
  useful : ∀ rule ∈ useful.rules, rule ∈ g.rules

namespace History.LeadsBack

variable {history : History} {g useful nullingFree unitFree normal : Grammar}

/-- The split can be undone, or nothing was split. -/
theorem exists_split_undone (hh : history.LeadsBack g useful nullingFree unitFree normal)
    (hg : g.WellFormed) (hs : s.id < g.symbols.size) (hv : g.isTerminal s = false)
    (h : normal.Derives d [s] word) :
    ∃ d', unitFree.Derives d' [s] word ∧ ∀ policy,
      (match history.split with
        | some split => Tracer.undoSplit ⟨g, history, policy⟩ split d
        | none => pure d).outcome = .ok d' := by
  obtain ⟨-, -, htf, htc⟩ := hh.terminals
  cases hrecord : history.split with
  | some split =>
    have hexplains := (hrecord ▸ hh.split).explains
    obtain ⟨d', hd', hundo⟩ := hexplains.exists_undoSplit (htc.trans htf.symm)
      (by rw [htf, hh.symbols]; exact hg.terminals) (by rwa [hh.symbols]) (by rwa [htf]) h
    exact ⟨d', hd', fun policy => hundo _ htf.symm⟩
  | none =>
    have hsubset := (hrecord ▸ hh.split).subset
    exact ⟨d, h.mono (htf.trans htc.symm) hsubset, fun policy => rfl⟩

/-- The chains of unit rules can be put back, or there were none. -/
theorem derives_units_undone (hh : history.LeadsBack g useful nullingFree unitFree normal)
    (h : unitFree.Derives d [s] word) :
    nullingFree.Derives
      (match history.units with
        | some units => expandUnits units d
        | none => d) [s] word := by
  obtain ⟨-, htn, htf, -⟩ := hh.terminals
  cases hrecord : history.units with
  | some units =>
    have hexplains := (hrecord ▸ hh.units).explains
    refine hexplains.derives_expandUnits (htf.trans htn.symm) ?_ h
    rw [htn]
    exact hh.lhs
  | none =>
    have hsubset := (hrecord ▸ hh.units).subset
    exact h.mono (htn.trans htf.symm) hsubset

/-- The symbols deleted can be put back, or none were deleted. -/
theorem exists_nulling_undone (hh : history.LeadsBack g useful nullingFree unitFree normal)
    (hv : g.isTerminal s = false) (h : nullingFree.Derives d [s] word) :
    ∃ d', useful.Derives d' [s] word ∧ ∀ policy,
      (match history.nulling with
        | some nulling => Tracer.undoNulling ⟨g, history, policy⟩ nulling d
        | none => pure d).outcome = .ok d' := by
  obtain ⟨htu, htn, -, -⟩ := hh.terminals
  cases hrecord : history.nulling with
  | some nulling =>
    have hexplains := (hrecord ▸ hh.nulling).explains
    obtain ⟨d', hd', hundo⟩ :=
      hexplains.exists_undoNulling (htn.trans htu.symm) (by rwa [htu]) h
    exact ⟨d', hd', fun policy => hundo _ htu.symm⟩
  | none =>
    have hsubset := (hrecord ▸ hh.nulling).subset
    exact ⟨d, h.mono (htu.trans htn.symm) hsubset, fun policy => rfl⟩

/-- Undoing the stages one after the other succeeds, whatever the policy, and keeps the word. -/
theorem exists_undo (hh : history.LeadsBack g useful nullingFree unitFree normal)
    (hg : g.WellFormed) (hs : s.id < g.symbols.size) (hv : g.isTerminal s = false)
    (h : normal.Derives d [s] word) :
    ∃ d', useful.Derives d' [s] word ∧
      ∀ policy, (Tracer.undo ⟨g, history, policy⟩ d).outcome = .ok d' := by
  obtain ⟨d₁, hd₁, hsplit⟩ := hh.exists_split_undone hg hs hv h
  obtain ⟨d₂, hd₂, hnulling⟩ := hh.exists_nulling_undone hv (hh.derives_units_undone hd₁)
  refine ⟨d₂, hd₂, fun policy => ?_⟩
  rw [Tracer.undo_eq, Run.outcome_bind, hsplit policy, Except.bind]
  exact hnulling policy

/-- Tracing back succeeds, whatever the policy, with a derivation of the same word in the given
grammar. -/
theorem exists_traceBack (hh : history.LeadsBack g useful nullingFree unitFree normal)
    (hg : g.WellFormed) (hs : s.id < g.symbols.size) (hv : g.isTerminal s = false)
    (h : normal.Derives d [s] word) :
    ∃ d', g.Derives d' [s] word ∧
      ∀ policy, (Tracer.traceBack ⟨g, history, policy⟩ d).outcome = .ok d' := by
  obtain ⟨d', hd', hundo⟩ := hh.exists_undo hg hs hv h
  have hderives : g.Derives d' [s] word := hd'.mono hh.terminals.1.symm hh.useful
  exact ⟨d', hderives, fun policy =>
    Tracer.traceBack_eq_ok_iff.2 ⟨hundo policy, .inr hderives.mem_rules⟩⟩

end History.LeadsBack

end ContextFree
