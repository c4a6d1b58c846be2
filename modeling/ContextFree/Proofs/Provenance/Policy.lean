import ContextFree.Proofs.Provenance.TraceBack

/-!
# The two policies of tracing back

Both policies do the same work in the same order and differ only where a rule of unknown provenance
comes up: one ends there with an error, the other warns and goes on. `Tracer.Parallel` relates their
runs. As long as no such rule comes up the runs are the same, and the first one that does is both
what the strict run reports and what the first warning of the lenient one displays, wherever that
ends afterwards. Each part of tracing back has parallel runs, and going on from parallel runs gives
parallel runs (`Tracer.Parallel.bind`). `Tracer.traceBack_policies` states this of tracing back any
rules by any history.
-/

namespace ContextFree

namespace Run

variable {ε α β : Type}

/-- The warnings among the events of a run, in order. -/
def warnings (run : Run ε α) : List Event := run.log.filter (·.level = .warn)

/-- A run whose first part fails is that part. -/
theorem bind_of_error {run : Run ε α} {e : ε} (h : run.outcome = .error e) (next : α → Run ε β) :
    run >>= next = ⟨run.log, .error e⟩ := by
  show run.andThen next = _
  unfold andThen
  rw [h]

/-- A run whose first part succeeds reports what both parts do and ends as the second. -/
theorem bind_of_ok {run : Run ε α} {a : α} (h : run.outcome = .ok a) (next : α → Run ε β) :
    run >>= next = ⟨run.log ++ (next a).log, (next a).outcome⟩ := by
  show run.andThen next = _
  unfold andThen
  rw [h]

/-- A run gives the warnings of its first part before any others. -/
theorem exists_warnings_bind (run : Run ε α) (next : α → Run ε β) :
    ∃ later, (run >>= next).warnings = run.warnings ++ later := by
  unfold warnings
  cases h : run.outcome with
  | error e => exact ⟨[], by rw [bind_of_error h, List.append_nil]⟩
  | ok a => exact ⟨_, by rw [bind_of_ok h, List.filter_append]⟩

end Run

namespace Tracer

variable {g : Grammar} {history : History} {α β : Type}

/-- How a run that refuses rules of unknown provenance and one that keeps them go side by side. -/
structure Parallel (g : Grammar) (strict lenient : Run TraceError α) : Prop where
  /-- The lenient run refuses no rule. -/
  resolved : ∀ rule, lenient.outcome ≠ .error (.unresolved rule)
  /-- The runs are the same, without any warning, or the strict run refuses the rule that the first
  warning of the lenient run displays. -/
  same_or_refused : strict = lenient ∧ lenient.warnings = [] ∨
    ∃ rule, strict.outcome = .error (.unresolved rule) ∧
      lenient.warnings.head? = some (.unresolvedKept (g.displayRule rule))

namespace Parallel

variable {strict lenient run : Run TraceError α} {next next' : α → Run TraceError β}

/-- A run that gives no warning and refuses no rule is parallel to itself. -/
theorem of_resolved (h : ∀ rule, run.outcome ≠ .error (.unresolved rule))
    (hnone : run.warnings = []) : Parallel g run run :=
  ⟨h, .inl ⟨rfl, hnone⟩⟩

/-- Going on from parallel runs in parallel gives parallel runs. -/
theorem bind (h : Parallel g strict lenient) (hnext : ∀ a, Parallel g (next a) (next' a)) :
    Parallel g (strict >>= next) (lenient >>= next') := by
  refine ⟨fun rule => ?_, ?_⟩
  · cases hlenient : lenient.outcome with
    | error e =>
      rw [Run.bind_of_error hlenient]
      intro heq
      obtain rfl := Except.error.inj heq
      exact h.resolved rule hlenient
    | ok a =>
      rw [Run.bind_of_ok hlenient]
      exact (hnext a).resolved rule
  · rcases h.same_or_refused with ⟨rfl, hnone⟩ | ⟨rule, hrefused, hwarning⟩
    · -- Nothing came up so far, so it is the second part that decides.
      cases hstrict : strict.outcome with
      | error e =>
        rw [Run.bind_of_error hstrict, Run.bind_of_error hstrict]
        exact .inl ⟨rfl, hnone⟩
      | ok a =>
        have hlater : (strict >>= next').warnings = (next' a).warnings := by
          rw [Run.bind_of_ok hstrict, Run.warnings, List.filter_append]
          exact congrArg (· ++ _) hnone
        rw [hlater]
        rcases (hnext a).same_or_refused with ⟨heq, hnone'⟩ | ⟨rule, hrefused, hwarning⟩
        · refine .inl ⟨?_, hnone'⟩
          rw [Run.bind_of_ok hstrict, Run.bind_of_ok hstrict, heq]
        · refine .inr ⟨rule, ?_, hwarning⟩
          rw [Run.bind_of_ok hstrict]
          exact hrefused
    · refine .inr ⟨rule, ?_, ?_⟩
      · rw [Run.bind_of_error hrefused]
      · obtain ⟨later, hlater⟩ := lenient.exists_warnings_bind next'
        rw [hlater, List.head?_append, hwarning]
        rfl

end Parallel

/-! ## The parts of tracing back -/

theorem parallel_pure (a : α) : Parallel g (pure a) (pure a) :=
  .of_resolved (fun _ h => absurd h (by simp)) rfl

/-- Rules that are no derivation are reported by both policies. -/
theorem parallel_ofExcept (outcome : Except Nat α) :
    Parallel g (.ofExcept (outcome.mapError TraceError.malformed))
      (.ofExcept (outcome.mapError TraceError.malformed)) := by
  refine .of_resolved (fun rule => ?_) rfl
  cases outcome <;> simp

/-- A rule of unknown provenance is what the policies differ in. -/
theorem parallel_unresolved (rule : Rule) :
    Parallel g (unresolved ⟨g, history, .strict⟩ rule)
      (unresolved ⟨g, history, .bestEffort⟩ rule) :=
  ⟨fun _ h => absurd h (by simp [unresolved]), .inr ⟨rule, rfl, rfl⟩⟩

theorem parallel_unresolvedAll (rules : List Rule) :
    Parallel g (unresolvedAll ⟨g, history, .strict⟩ rules)
      (unresolvedAll ⟨g, history, .bestEffort⟩ rules) := by
  induction rules with
  | nil => exact parallel_pure ()
  | cons rule rules ih => exact (parallel_unresolved rule).bind fun _ => ih

theorem parallel_undoSplit (split : SplitMap) (d : Derivation) :
    Parallel g (undoSplit ⟨g, history, .strict⟩ split d)
      (undoSplit ⟨g, history, .bestEffort⟩ split d) :=
  (parallel_ofExcept _).bind fun _ => (parallel_unresolvedAll _).bind fun _ => parallel_pure _

theorem parallel_undoNulling (nulling : NullingMap) (d : Derivation) :
    Parallel g (undoNulling ⟨g, history, .strict⟩ nulling d)
      (undoNulling ⟨g, history, .bestEffort⟩ nulling d) :=
  (parallel_ofExcept _).bind fun _ => (parallel_ofExcept _).bind fun _ => parallel_pure _

theorem parallel_undo (trace : Derivation) :
    Parallel g (undo ⟨g, history, .strict⟩ trace) (undo ⟨g, history, .bestEffort⟩ trace) := by
  rw [undo_eq, undo_eq]
  refine Parallel.bind ?_ fun d => ?_
  · cases history.split with
    | some split => exact parallel_undoSplit split trace
    | none => exact parallel_pure trace
  · cases history.nulling with
    | some nulling => exact parallel_undoNulling nulling _
    | none => exact parallel_pure _

theorem parallel_traceBack (trace : Derivation) :
    Parallel g (traceBack ⟨g, history, .strict⟩ trace)
      (traceBack ⟨g, history, .bestEffort⟩ trace) :=
  (parallel_undo trace).bind fun d => (parallel_unresolvedAll _).bind fun _ =>
    Parallel.bind (.of_resolved (fun _ h => absurd h (by simp)) rfl) fun _ => parallel_pure d

/-- Whatever the grammar, the history and the rules that are traced back, the lenient policy refuses
no rule, and the strict one refuses a rule or ends in the same way: with the same derivation or with
the same place that does not fit. The strict policy refuses a rule exactly when the lenient one
warns, and the first warning displays the rule that is refused. -/
theorem traceBack_policies (g : Grammar) (history : History) (trace : Derivation) :
    (∀ rule, (traceBack ⟨g, history, .bestEffort⟩ trace).outcome ≠ .error (.unresolved rule)) ∧
      ((∃ rule, (traceBack ⟨g, history, .strict⟩ trace).outcome = .error (.unresolved rule)) ∨
        (traceBack ⟨g, history, .strict⟩ trace).outcome =
          (traceBack ⟨g, history, .bestEffort⟩ trace).outcome) ∧
      ((∃ rule, (traceBack ⟨g, history, .strict⟩ trace).outcome = .error (.unresolved rule)) ↔
        (traceBack ⟨g, history, .bestEffort⟩ trace).warnings ≠ []) ∧
      ∀ rule, (traceBack ⟨g, history, .strict⟩ trace).outcome = .error (.unresolved rule) →
        (traceBack ⟨g, history, .bestEffort⟩ trace).warnings.head? =
          some (.unresolvedKept (g.displayRule rule)) := by
  have h : Parallel g (traceBack ⟨g, history, .strict⟩ trace)
      (traceBack ⟨g, history, .bestEffort⟩ trace) := parallel_traceBack trace
  refine ⟨h.resolved, ?_⟩
  rcases h.same_or_refused with ⟨heq, hnone⟩ | ⟨rule, hrefused, hwarning⟩
  · have hresolved : ∀ rule,
        (traceBack ⟨g, history, .strict⟩ trace).outcome ≠ .error (.unresolved rule) := by
      rw [heq]
      exact h.resolved
    refine ⟨.inr (by rw [heq]), ⟨?_, fun hne => absurd hnone hne⟩, fun rule hrefused => ?_⟩
    · rintro ⟨rule, hrefused⟩
      exact absurd hrefused (hresolved rule)
    · exact absurd hrefused (hresolved rule)
  · refine ⟨.inl ⟨rule, hrefused⟩, ⟨fun _ hnone => ?_, fun _ => ⟨rule, hrefused⟩⟩, ?_⟩
    · rw [hnone] at hwarning
      exact absurd hwarning (by simp)
    · intro rule' hrefused'
      obtain rfl := TraceError.unresolved.inj (Except.error.inj (hrefused.symm.trans hrefused'))
      exact hwarning

/-- A history that has no split for the rule `S → a` and takes it for what is left of `S → S a`. -/
def strayHistory : History where
  split := some .empty
  nulling := some ((∅ : NullingMap).insert ⟨⟨0⟩, [⟨1⟩]⟩ ⟨⟨⟨0⟩, [⟨0⟩, ⟨1⟩]⟩, []⟩)

/-- The grammar with the variable `S` and the terminal `a`, without rules. -/
def bare : Grammar := Grammar.empty |>.addVariable (some "S") |>.addTerminal "a"

/-- The lenient policy keeps `S → a` with a warning, and then finds that the rule it is taken for
has no derivation for its variable. The strict policy ends with the rule. -/
theorem traceBack_policies_bare :
    (traceBack ⟨bare, strayHistory, .strict⟩ [⟨⟨0⟩, [⟨1⟩]⟩]).outcome =
        .error (.unresolved ⟨⟨0⟩, [⟨1⟩]⟩) ∧
      (traceBack ⟨bare, strayHistory, .bestEffort⟩ [⟨⟨0⟩, [⟨1⟩]⟩]).outcome =
        .error (.malformed 0) ∧
      (traceBack ⟨bare, strayHistory, .bestEffort⟩ [⟨⟨0⟩, [⟨1⟩]⟩]).warnings ≠ [] ∧
      (traceBack ⟨bare, strayHistory, .bestEffort⟩ [⟨⟨0⟩, [⟨1⟩]⟩]).warnings.head? =
        some (.unresolvedKept "S -> a") := by
  have hstrict : (traceBack ⟨bare, strayHistory, .strict⟩ [⟨⟨0⟩, [⟨1⟩]⟩]).outcome =
      .error (.unresolved ⟨⟨0⟩, [⟨1⟩]⟩) :=
    rfl
  obtain ⟨-, -, hwarns, hfirst⟩ := traceBack_policies bare strayHistory [⟨⟨0⟩, [⟨1⟩]⟩]
  have hdisplayed : bare.displayRule ⟨⟨0⟩, [⟨1⟩]⟩ = "S -> a" := by decide +kernel
  refine ⟨hstrict, rfl, hwarns.1 ⟨_, hstrict⟩, ?_⟩
  rw [← hdisplayed]
  exact hfirst _ hstrict

end Tracer

end ContextFree
