import ContextFree.Grammar.Builder
import ContextFree.Proofs.Grammar.Reader
import ContextFree.Proofs.Normal.Binarize
import ContextFree.Proofs.Normal.NullingFree
import ContextFree.Proofs.Normal.UnitFree
import ContextFree.Proofs.Normal.Useful

/-!
# Runs of operations

A run applies operations on grammars and stages of normalization one after the other, in any order
(`Operation`, `Grammar.run`). Each stage is made of operations, so it keeps what they keep
(`Phase.keeps`), and with it so does a whole run (`Grammar.keeps_run`). On a valid grammar a stage
that succeeds does more: its result is valid, has the same start and the same terminals, and only
the conversion into normal form makes symbols (`Phase.valid_of_apply`). Both are stated together for
every grammar that arises by a run from the empty grammar or from one that was read
(`Grammar.run_keeps_identity`).
-/

namespace ContextFree

/-- A draft keeps what the grammar it began with has. -/
theorem Draft.Extends.keeps {α : Type} {d : Draft α} {base : Grammar} (h : d.Extends base) :
    base.Keeps d.grammar := by
  rw [h.grammar]
  exact .of_terminals (.refl _) rfl fun _ => h.nodup

/-! ## The conversion into normal form -/

namespace Binarizer

theorem keeps_fresh (b : Binarizer) : b.result.Keeps b.fresh.2.result :=
  b.result.keeps_addVariable _

theorem keeps_operand (b : Binarizer) (s : Symbol) : b.result.Keeps (b.operand s).2.result := by
  unfold operand
  by_cases ht : b.result.isTerminal s = true
  · rw [if_pos ht]
    cases b.wrappers.lookup s with
    | some wrapper => exact .refl _
    | none => exact b.keeps_fresh
  · rw [if_neg ht]
    exact .refl _

/-- Every step of the conversion keeps what a grammar before it had. -/
theorem kept_keeps (base : Grammar) (lhs : Symbol) : Kept lhs fun _ b => base.Keeps b.result where
  of_mem_iff _ h := h
  fresh _ _ h := h.trans (keeps_fresh _)
  operand s h := h.trans (keeps_operand _ s)
  cons _ h := h
  record _ split h := h.trans (Grammar.keeps_addRules _ split)

end Binarizer

/-- The conversion keeps the symbols there are. -/
theorem Grammar.keeps_binarize (g : Grammar) : g.Keeps g.binarize.grammar :=
  Binarizer.Kept.binarizer (fun rule _ => Binarizer.kept_keeps g rule.lhs) g.keeps_withoutRules

/-! ## Stages -/

/-- The stages of normalization. -/
inductive Phase where
  /-- The removal of useless rules. -/
  | useless
  /-- The elimination of nulling rules. -/
  | nulling
  /-- The elimination of unit rules. -/
  | units
  /-- The conversion into normal form. -/
  | normalForm
deriving DecidableEq, Repr

namespace Phase

/-- The grammar after a stage, if the stage succeeds. -/
def apply (g : Grammar) : Phase → Except NormalizeError Grammar
  | useless => g.removeUseless.map (·.grammar)
  | nulling => .ok g.eliminateNulling.grammar
  | units => .ok g.eliminateUnits.grammar
  | normalForm => g.toNormalForm.map (·.grammar)

variable {g g' : Grammar} {phase : Phase}

/-- What a stage that succeeds gives. -/
theorem eq_of_apply (h : phase.apply g = .ok g') :
    (phase = useless ∧ g.Valid ∧ ∃ start, g' = g.productivePart.reachablePart start) ∨
      (phase = nulling ∧ g' = g.eliminateNulling.grammar) ∨
      (phase = units ∧ g' = g.eliminateUnits.grammar) ∨
      (phase = normalForm ∧ g' = g.binarize.grammar ∧
        ∀ rule ∈ g.rules, g.conversionError? rule = none) := by
  cases phase with
  | useless =>
    cases hstart : g.validStart with
    | error e => simp [apply, Grammar.removeUseless, hstart, Except.map] at h
    | ok start =>
      obtain rfl : g.productivePart.reachablePart start = g' := by
        simpa [apply, Grammar.removeUseless, hstart, Except.map] using h
      exact .inl ⟨rfl, (Grammar.validStart_eq_ok_iff.1 hstart).1, start, rfl⟩
  | nulling => exact .inr (.inl ⟨rfl, (Except.ok.inj h).symm⟩)
  | units => exact .inr (.inr (.inl ⟨rfl, (Except.ok.inj h).symm⟩))
  | normalForm =>
    cases hstage : g.toNormalForm with
    | error e => simp [apply, hstage, Except.map] at h
    | ok stage =>
      obtain rfl : stage.grammar = g' := by simpa [apply, hstage, Except.map] using h
      obtain ⟨rfl, hrules⟩ := Grammar.eq_binarize_of_toNormalForm hstage
      exact .inr (.inr (.inr ⟨rfl, rfl, hrules⟩))

/-- Every stage keeps the symbols there are, whatever the grammar. -/
theorem keeps (h : phase.apply g = .ok g') : g.Keeps g' := by
  rcases eq_of_apply h with ⟨-, -, start, rfl⟩ | ⟨-, rfl⟩ | ⟨-, rfl⟩ | ⟨-, rfl, -⟩
  · exact (g.keeps_retain _).trans (Grammar.keeps_retain _ _)
  · have hbase : g.Keeps g.nonNulling :=
      g.keeps_withoutRules.trans (Grammar.keeps_addRules _ _)
    exact hbase.trans ((g.nullingDraft_extends _).keeps.trans (Grammar.keeps_retain _ _))
  · have hbase : g.Keeps g.nonUnit := g.keeps_withoutRules.trans (Grammar.keeps_addRules _ _)
    exact hbase.trans g.unitDraft_extends.keeps
  · exact g.keeps_binarize

/-- A stage that succeeds on a valid grammar gives a valid one with the same start and the same
terminals, and only the conversion into normal form makes symbols. -/
theorem valid_of_apply (hw : g.WellFormed) (hg : g.Valid) (h : phase.apply g = .ok g') :
    g'.Valid ∧ g'.start = g.start ∧ g'.terminals = g.terminals ∧
      (phase ≠ normalForm → g'.symbols = g.symbols) := by
  rcases eq_of_apply h with ⟨-, -, start, rfl⟩ | ⟨-, rfl⟩ | ⟨-, rfl⟩ | ⟨rfl, rfl, hrules⟩
  · exact ⟨Grammar.reachablePart_valid (Grammar.productivePart_valid hg), rfl, rfl, fun _ => rfl⟩
  · refine ⟨Grammar.eliminateNulling_valid hg, ?_⟩
    rw [Grammar.eliminateNulling_grammar]
    exact ⟨rfl, rfl, fun _ => rfl⟩
  · refine ⟨Grammar.eliminateUnits_valid hg, ?_⟩
    rw [Grammar.eliminateUnits_grammar]
    exact ⟨rfl, rfl, fun _ => rfl⟩
  · have hconv : g.Convertible := ⟨hw, hg, hrules⟩
    exact ⟨hconv.binarize_valid, hconv.start_eq, hconv.converts.sound.terminals,
      fun hne => absurd rfl hne⟩

end Phase

/-! ## Operations -/

/-- A call of a rule builder. -/
inductive RuleBuilder.Call where
  /-- Names the left-hand side of the rules that follow. -/
  | rule (lhs : Symbol)
  /-- Adds a rule with the given right-hand side. -/
  | rhs (symbols : List Symbol)

namespace RuleBuilder

/-- The builder after some calls; a call that is refused ends them, and what was added stays. -/
def perform (b : RuleBuilder) : List Call → RuleBuilder
  | [] => b
  | .rule lhs :: calls => (b.rule lhs).perform calls
  | .rhs symbols :: calls =>
    match b.rhs symbols with
    | .ok b' => b'.perform calls
    | .error _ => b

/-- A right-hand side adds a rule and nothing else. -/
theorem keeps_rhs {b b' : RuleBuilder} {symbols : List Symbol} (h : b.rhs symbols = .ok b') :
    b.grammar.Keeps b'.grammar := by
  unfold rhs at h
  split at h
  · exact absurd h (by simp)
  · next lhs _ =>
    obtain rfl := Except.ok.inj h
    exact b.grammar.keeps_addRule ⟨lhs, symbols⟩

/-- Calls of a builder keep the symbols there are, also if one is refused. -/
theorem keeps_perform (b : RuleBuilder) (calls : List Call) :
    b.grammar.Keeps (b.perform calls).grammar := by
  induction calls generalizing b with
  | nil => exact .refl _
  | cons call calls ih =>
    cases call with
    | rule lhs => exact ih (b.rule lhs)
    | rhs symbols =>
      unfold perform
      cases h : b.rhs symbols with
      | error e => exact .refl _
      | ok b' => exact (keeps_rhs h).trans (ih b')

end RuleBuilder

/-- What can be done to a grammar. -/
inductive Operation where
  /-- Makes variables with the given names, or without any. -/
  | addVariables (names : List (Option String))
  /-- Makes a variable, with or without a name. -/
  | addVariable (name : Option String)
  /-- Makes a terminal. -/
  | addTerminal (name : String)
  /-- Names the start symbol. -/
  | setStart (start : Symbol)
  /-- Adds a rule. -/
  | addRule (rule : Rule)
  /-- Builds rules. -/
  | build (calls : List RuleBuilder.Call)
  /-- Keeps some of the rules. -/
  | retain (keep : Nat → Rule → Bool)
  /-- Drops all rules. -/
  | withoutRules
  /-- Goes through a stage of normalization; one that fails leaves the grammar as it is. -/
  | stage (phase : Phase)

namespace Operation

/-- The grammar after an operation. -/
def apply (g : Grammar) : Operation → Grammar
  | addVariables names => (g.addVariables names).2
  | addVariable name => g.addVariable name
  | addTerminal name => g.addTerminal name
  | setStart start => g.setStart start
  | addRule rule => g.addRule rule
  | build calls => (RuleBuilder.perform ⟨g, none⟩ calls).grammar
  | retain keep => g.retainIdx keep
  | withoutRules => g.withoutRules
  | stage phase => (phase.apply g).toOption.getD g

/-- Every operation keeps the symbols there are. -/
theorem keeps_apply (g : Grammar) (operation : Operation) : g.Keeps (operation.apply g) := by
  cases operation with
  | addVariables names => exact g.keeps_addVariables names
  | addVariable name => exact g.keeps_addVariable name
  | addTerminal name => exact g.keeps_addTerminal name
  | setStart start => exact g.keeps_setStart start
  | addRule rule => exact g.keeps_addRule rule
  | build calls => exact RuleBuilder.keeps_perform ⟨g, none⟩ calls
  | retain keep => exact g.keeps_retainIdx keep
  | withoutRules => exact g.keeps_withoutRules
  | stage phase =>
    show g.Keeps ((phase.apply g).toOption.getD g)
    cases h : phase.apply g with
    | error e => exact .refl _
    | ok g' => exact phase.keeps h

end Operation

namespace Grammar

/-- The grammar after some operations. -/
def run (g : Grammar) (operations : List Operation) : Grammar := operations.foldl Operation.apply g

/-- A run keeps the symbols there are. -/
theorem keeps_run (g : Grammar) (operations : List Operation) : g.Keeps (g.run operations) :=
  .foldl id Operation.keeps_apply g operations

/-- A grammar that was read is well-formed. -/
theorem wellFormed_of_load {g : Grammar} {text : String} (h : (load text).outcome = .ok g) :
    g.WellFormed := by
  rw [outcome_load] at h
  obtain ⟨productions, -, -, rfl⟩ := read_eq_ok_iff.1 h
  exact (Keeps.foldl id keeps_addEntry empty _).wellFormed Built.empty.wellFormed

/-- The grammar arises by a run from the empty grammar or from one that was read. -/
def Arises (g : Grammar) : Prop :=
  ∃ origin operations, (origin = empty ∨ ∃ text, (load text).outcome = .ok origin) ∧
    g = origin.run operations

/-- A grammar that arises is well-formed. -/
theorem Arises.wellFormed {g : Grammar} (h : g.Arises) : g.WellFormed := by
  obtain ⟨origin, operations, horigin, rfl⟩ := h
  refine (keeps_run origin operations).wellFormed ?_
  rcases horigin with rfl | ⟨text, htext⟩
  · exact Built.empty.wellFormed
  · exact wellFormed_of_load htext

/-- However a grammar arises, its rules are distinct and its terminals are symbols it made, and
whatever is done next, these symbols keep their names and stay terminals or variables. If it is
valid, a stage that succeeds gives a valid grammar with the same start and the same terminals; only
the conversion into normal form makes symbols, and these are variables numbered behind those there
were. -/
theorem run_keeps_identity {g : Grammar} (h : g.Arises) :
    g.rules.Nodup ∧ (∀ s, g.isTerminal s = true → g.knows s = true) ∧
    (∀ operations s, g.knows s = true →
      (g.run operations).knows s = true ∧
      (g.run operations).symbols.name? s = g.symbols.name? s ∧
      (g.run operations).isTerminal s = g.isTerminal s) ∧
    ∀ phase result, g.validate = .ok () → Phase.apply g phase = .ok result →
      result.validate = .ok () ∧ result.start = g.start ∧ result.terminals = g.terminals ∧
      (phase ≠ .normalForm → result.symbols = g.symbols) ∧
      ∀ s, result.knows s = true → g.knows s = false →
        result.isTerminal s = false ∧ g.symbols.size ≤ s.id := by
  have hw := h.wellFormed
  refine ⟨hw.nodup, fun s hs => knows_iff.2 (hw.terminals s hs), fun operations s hs => ?_, ?_⟩
  · have hkeeps := keeps_run g operations
    have hlt := knows_iff.1 hs
    refine ⟨knows_iff.2 ?_, hkeeps.symbols.name?_eq hlt, hkeeps.isTerminal s hlt⟩
    exact Nat.lt_of_lt_of_le hlt hkeeps.symbols.size_le
  · intro phase result hvalid hresult
    obtain ⟨hv, hstart, hterminals, hsymbols⟩ :=
      phase.valid_of_apply hw (validate_eq_ok_iff.1 hvalid) hresult
    refine ⟨validate_eq_ok_iff.2 hv, hstart, hterminals, hsymbols, fun s _ hnew => ?_⟩
    have hge : g.symbols.size ≤ s.id := by
      simpa [knows, SymbolTable.knows] using hnew
    refine ⟨?_, hge⟩
    rw [isTerminal, hterminals, Bool.eq_false_iff]
    intro hterm
    have hlt := hw.terminals s hterm
    omega

/-- A run that makes a grammar for `ab` by way of an empty variable, and goes through stages. -/
def sampleRun : List Operation :=
  [.addVariables [some "S", none], .addTerminal "a", .addTerminal "b", .setStart ⟨0⟩,
    .build [.rule ⟨0⟩, .rhs [⟨2⟩, ⟨1⟩, ⟨3⟩], .rule ⟨1⟩, .rhs []], .addRule ⟨⟨1⟩, []⟩,
    .stage .nulling, .stage .units]

/-- After the run the conversion into normal form makes two variables, numbered behind the four
symbols there were, which keep their names through it. -/
theorem run_keeps_identity_sample :
    (empty.run sampleRun).Arises ∧ (empty.run sampleRun).validate = .ok () ∧
    ∃ result, Phase.apply (empty.run sampleRun) .normalForm = .ok result ∧
      result.symbols.size = 6 ∧ result.validate = .ok () ∧
      result.isTerminal ⟨4⟩ = false ∧
      ((empty.run sampleRun).run [.stage .normalForm]).symbols.name? ⟨3⟩ =
        (empty.run sampleRun).symbols.name? ⟨3⟩ := by
  have hvalid : (empty.run sampleRun).validate = .ok () := by decide +kernel
  have hconverts : (Phase.apply (empty.run sampleRun) .normalForm).toOption.any (fun result =>
      decide (result.symbols.size = 6) && result.knows ⟨4⟩) = true := by
    decide +kernel
  obtain ⟨result, hresult, hfacts⟩ := Run.exists_eq_ok_of_any hconverts
  obtain ⟨hsize, hknown⟩ := Bool.and_eq_true_iff.1 hfacts
  have harises : (empty.run sampleRun).Arises := ⟨empty, sampleRun, .inl rfl, rfl⟩
  obtain ⟨-, -, hnames, hphases⟩ := run_keeps_identity harises
  obtain ⟨hv, -, -, -, hnew⟩ := hphases .normalForm result hvalid hresult
  exact ⟨harises, hvalid, result, hresult, of_decide_eq_true hsize, hv,
    (hnew ⟨4⟩ hknown (by decide +kernel)).1,
    (hnames [.stage .normalForm] ⟨3⟩ (by decide +kernel)).2.1⟩

end Grammar

end ContextFree
