/-!
# Events

What the library reports while it works, as data. An event says what happened and with which
figures; `Event.level` says how much it matters and `Event.message` puts it into words. A `Run` is
what a computation reports on its way together with how it ends, so a run that fails still has the
events that came before the failure (`Run.log_bind`).
-/

namespace ContextFree

/-- How much an event matters, the weightiest first. -/
inductive Level where
  /-- Something was done that may not be wanted. -/
  | warn
  /-- A stage has ended. -/
  | debug
  /-- A single step inside a stage. -/
  | trace
deriving DecidableEq, Repr

namespace Level

/-- The place of a level, counted from the weightiest. -/
def rank : Level → Nat
  | .warn => 0
  | .debug => 1
  | .trace => 2

/-- The name under which events of the level are listed. -/
def name : Level → String
  | .warn => "WARN"
  | .debug => "DEBUG"
  | .trace => "TRACE"

/-- Whether someone who asked for events down to `threshold` gets to see this level. -/
def shownAt (level threshold : Level) : Bool := decide (level.rank ≤ threshold.rank)

end Level

/-- Something that happened. Rules appear as they are displayed by the grammar at hand. -/
inductive Event where
  /-- A grammar was read. -/
  | loaded (rules symbols : Nat)
  /-- Useless rules were removed. -/
  | uselessRemoved (removed total : Nat)
  /-- A rule was made from another one by deleting symbols. -/
  | variantMade (rule origin : String)
  /-- Nulling rules were eliminated. -/
  | nullingEliminated (nullable synthesized total : Nat)
  /-- A rule was made that stands for a chain of unit rules and the rule at its end. -/
  | shortcutMade (rule : String) (chain : Nat)
  /-- Unit rules were eliminated. -/
  | unitsEliminated (synthesized total : Nat)
  /-- A rule was split into rules in normal form. -/
  | ruleSplit (rule : String) (parts : Nat)
  /-- All rules were brought into normal form. -/
  | converted (before after : Nat)
  /-- A grammar was in normal form to begin with. -/
  | alreadyNormal (rules : Nat)
  /-- A grammar was normalized. -/
  | normalized (before after : Nat)
  /-- The input has a symbol that no rule derives. -/
  | unrecognized (position : Nat)
  /-- The cell of a span was filled. -/
  | cellFilled (first last count : Nat)
  /-- An input was accepted or rejected. -/
  | decided (accepted : Bool) (length : Nat)
  /-- A rule of unknown provenance was kept. -/
  | unresolvedKept (rule : String)
  /-- A derivation was traced back. -/
  | tracedBack (before after : Nat)
  /-- A parser was prepared. -/
  | parserReady (rules after : Nat)
deriving DecidableEq, Repr

namespace Event

/-- How much an event matters: single steps are traced, ends of stages are debugging aids, and only
a kept rule of unknown provenance is a warning. -/
def level : Event → Level
  | variantMade .. | shortcutMade .. | ruleSplit .. | cellFilled .. => .trace
  | unresolvedKept .. => .warn
  | _ => .debug

/-- An event in words. -/
def message : Event → String
  | loaded rules symbols => s!"loaded {rules} rules over {symbols} symbols"
  | uselessRemoved removed total => s!"removed {removed} useless rules out of {total}"
  | variantMade rule origin => s!"`{rule}` from `{origin}`"
  | nullingEliminated nullable synthesized total =>
    s!"eliminated nulling rules: {nullable} nullable symbols, {synthesized} rules synthesized, " ++
      s!"{total} rules total"
  | shortcutMade rule chain => s!"`{rule}` through a chain of {chain} unit rules"
  | unitsEliminated synthesized total =>
    s!"eliminated unit rules: {synthesized} rules synthesized, {total} rules total"
  | ruleSplit rule parts => s!"`{rule}` split into {parts} rules"
  | converted before after => s!"converted {before} rules into {after} rules in normal form"
  | alreadyNormal rules => s!"grammar of {rules} rules is already in normal form"
  | normalized before after => s!"normalized {before} rules into {after} rules"
  | unrecognized position => s!"rejected: no rule derives the symbol at {position}"
  | cellFilled first last count => s!"span {first}..={last} holds {count} variables"
  | decided accepted length =>
    (if accepted then "accepted" else "rejected") ++ s!" input of {length} symbols"
  | unresolvedKept rule => s!"keeping rule `{rule}` of unknown provenance"
  | tracedBack before after => s!"traced {before} rules back to {after} rules"
  | parserReady rules after =>
    s!"parser ready: {rules} rules, {after} after normalization"

end Event

/-! ## Runs -/

/-- A computation that reports events and then ends with a value or an error. -/
@[ext] structure Run (ε α : Type) where
  /-- The events reported, in order. -/
  log : List Event
  /-- How the computation ended. -/
  outcome : Except ε α

namespace Run

variable {ε α β : Type}

/-- Ends with an error, reporting nothing. -/
def fail (error : ε) : Run ε α := ⟨[], .error error⟩

/-- Reports events. -/
def emit (events : List Event) : Run ε Unit := ⟨events, .ok ()⟩

/-- Ends as given, reporting nothing. -/
def ofExcept (outcome : Except ε α) : Run ε α := ⟨[], outcome⟩

/-- Goes on with the value of the first run, unless that failed. -/
def andThen (run : Run ε α) (next : α → Run ε β) : Run ε β :=
  match run.outcome with
  | .error error => ⟨run.log, .error error⟩
  | .ok value => ⟨run.log ++ (next value).log, (next value).outcome⟩

instance : Monad (Run ε) where
  pure value := ⟨[], .ok value⟩
  bind := andThen

/-- The same run, with its error restated. -/
def mapError {δ : Type} (f : ε → δ) (run : Run ε α) : Run δ α := ⟨run.log, run.outcome.mapError f⟩

@[simp] theorem outcome_pure (value : α) : (pure value : Run ε α).outcome = .ok value := rfl

@[simp] theorem log_pure (value : α) : (pure value : Run ε α).log = [] := rfl

@[simp] theorem outcome_emit (events : List Event) :
    (emit events : Run ε Unit).outcome = .ok () := rfl

@[simp] theorem outcome_fail (error : ε) : (fail error : Run ε α).outcome = .error error := rfl

@[simp] theorem outcome_ofExcept (outcome : Except ε α) : (ofExcept outcome).outcome = outcome :=
  rfl

/-- Going on from a run of two parts is going on from the second part. -/
theorem andThen_assoc {γ : Type} (run : Run ε α) (next : α → Run ε β) (last : β → Run ε γ) :
    (run.andThen next).andThen last = run.andThen fun value => (next value).andThen last := by
  obtain ⟨log, outcome⟩ := run
  cases outcome with
  | error e => rfl
  | ok value =>
    simp only [andThen]
    cases (next value).outcome <;> simp

instance : LawfulMonad (Run ε) := .mk' _
  (fun run => by
    obtain ⟨log, outcome⟩ := run
    cases outcome <;> simp [Functor.map, andThen])
  (fun value next => by simp [bind, pure, andThen])
  andThen_assoc

/-- A run of two parts ends as the first does if that fails, and as the second otherwise. -/
@[simp] theorem outcome_bind (run : Run ε α) (next : α → Run ε β) :
    (run >>= next).outcome = run.outcome.bind fun value => (next value).outcome := by
  show (run.andThen next).outcome = _
  unfold andThen
  cases run.outcome <;> rfl

/-- A run of two parts reports what the first part does and then, unless that failed, what the
second part does. -/
theorem log_bind (run : Run ε α) (next : α → Run ε β) :
    (run >>= next).log =
      run.log ++ (match run.outcome with
        | .error _ => []
        | .ok value => (next value).log) := by
  show (run.andThen next).log = _
  unfold andThen
  cases run.outcome <;> simp

end Run

end ContextFree
