import ContextFree.Proofs.Normal.Idempotence

/-!
# What the conversion into normal form records

The rules of the result are the recorded splits, one after the other without repetitions
(`Grammar.Convertible.rules_binarize`). Every variable that is made gets a rule
(`Binarizer.Covers`), and by soundness it gets no other, so introduced variables can be replaced in
one way only (`SplitMap.Unfolds.unique`). Replacing them below the first rule of a split goes
through the rest of the split in order and ends with the right-hand side of the rule that was split,
since the rules of an operand lead from its variable to its leaves (`Operand.replay_rules`). Thus
the record tells all about the result (`Grammar.splitRecord_exact`), and the result is a grammar in
normal form in which each variable derives what it did before (`Grammar.toNormalForm_exact`).
-/

namespace ContextFree

/-! ## The order of the rules -/

/-- What the rules were split into, one after the other. -/
def SplitMap.concat (m : SplitMap) (rules : List Rule) : Derivation :=
  rules.flatMap fun rule => (m.get? rule).getD []

/-- Rules added to those of a list without repetitions are put at the end of the list. -/
theorem Grammar.rules_addRules_eq_eraseDups {g : Grammar} {made rules : List Rule}
    (h : g.rules = made.eraseDups) : (g.addRules rules).rules = (made ++ rules).eraseDups := by
  induction rules generalizing g made with
  | nil => rwa [List.append_nil]
  | cons rule rules ih =>
    have hadd : (g.addRule rule).rules = (made ++ [rule]).eraseDups := by
      have hmem : rule ∈ g.rules ↔ rule ∈ made := by rw [h, List.mem_eraseDups]
      rw [addRule_eq, eraseDups_concat]
      by_cases hm : rule ∈ made
      · rw [if_pos (hmem.2 hm), if_pos hm, h]
      · rw [if_neg (mt hmem.1 hm), if_neg hm, h]
    rw [List.append_cons]
    exact ih hadd

namespace Binarizer

variable {g : Grammar} {b : Binarizer} {rule : Rule} {done : List Rule}

/-- The rules done are converted, and their splits follow each other in the result. -/
structure Arranges (g : Grammar) (done : List Rule) (b : Binarizer) : Prop
    extends b.Converts g done where
  /-- The rules are the splits in order, each rule at its first place. -/
  order : b.result.rules = (b.split.concat done).eraseDups

/-- Converting one more rule puts its split behind those before. -/
theorem Arranges.convert (h : b.Arranges g done) (hnew : rule ∉ done)
    (hl : rule.lhs.id < g.symbols.size) (hk : ∀ s ∈ rule.rhs, s.id < g.symbols.size)
    (hr : g.conversionError? rule = none) : (b.convert rule).Arranges g (done ++ [rule]) := by
  refine ⟨h.toConverts.convert hnew hl hk hr, ?_⟩
  obtain ⟨op, b', hconvert, -, hmakes⟩ := h.sound.convert hl hk hr
  have hkeep : (b.convert rule).split.concat done = b.split.concat done := by
    refine List.flatMap_congr fun r hm => ?_
    have hne : r ≠ rule := by
      rintro rfl
      exact hnew hm
    rw [hconvert, hmakes.get?_record, if_neg hne]
  have hlast : (b.convert rule).split.concat [rule] = op.rules := by
    rw [SplitMap.concat, List.flatMap_singleton, hconvert, hmakes.get?_record, if_pos rfl]
    rfl
  have hsplit : (b.convert rule).split.concat (done ++ [rule]) =
      b.split.concat done ++ op.rules := by
    rw [← hkeep, ← hlast]
    exact List.flatMap_append
  rw [hsplit, hconvert]
  exact Grammar.rules_addRules_eq_eraseDups (hmakes.rules.trans h.order)

/-! ## Fresh variables have rules -/

/-- Every variable made since the grammar has one of the rules made. -/
def Covers (g : Grammar) (made : List Rule) (b : Binarizer) : Prop :=
  ∀ s : Symbol, g.symbols.size ≤ s.id → s.id < b.result.symbols.size → ∃ rule ∈ made, rule.lhs = s

variable {made made' : List Rule}

/-- More rules cover what fewer do. -/
theorem Covers.mono (h : b.Covers g made) (hsub : made ⊆ made') : b.Covers g made' := by
  intro s hs hlt
  obtain ⟨rule, hr, hl⟩ := h s hs hlt
  exact ⟨rule, hsub hr, hl⟩

/-- The next variable is covered by a rule for it. -/
theorem Covers.fresh (h : b.Covers g made) (rhs : List Symbol) :
    b.fresh.2.Covers g (⟨b.fresh.1, rhs⟩ :: made) := by
  intro s hs hlt
  rw [size_fresh] at hlt
  rcases Nat.lt_succ_iff_lt_or_eq.1 hlt with hlt | heq
  · obtain ⟨rule, hr, hl⟩ := h s hs hlt
    exact ⟨rule, List.mem_cons_of_mem _ hr, hl⟩
  · exact ⟨_, List.mem_cons_self, Symbol.ext heq.symm⟩

/-- The rules made for an operand cover the variable that may be made for it. -/
theorem Covers.operand (h : b.Covers g made) (s : Symbol) :
    (b.operand s).2.Covers g ((b.operand s).1.rules ++ made) := by
  unfold Binarizer.operand
  split
  · split
    · exact h.mono (List.subset_append_right _ _)
    · exact h.fresh [s]
  · exact h

/-- Every step of the conversion keeps its variables covered. -/
theorem kept_covers (g : Grammar) (lhs : Symbol) : Kept lhs fun made b => b.Covers g made where
  of_mem_iff hm h := h.mono fun rule hr => (hm rule).2 hr
  fresh left right h := h.fresh [left, right]
  operand s h := h.operand s
  cons _ h := h.mono (List.subset_cons_self ..)
  record rule split h := by
    intro s hs hlt
    rw [result_record] at hlt
    exact h s hs hlt

end Binarizer

namespace Grammar

variable {g : Grammar}

/-- Every variable that the conversion makes has a rule of the result. -/
theorem covers_binarizer (g : Grammar) : g.binarizer.Covers g g.binarize.grammar.rules :=
  Binarizer.Kept.binarizer (fun rule _ => Binarizer.kept_covers g rule.lhs)
    fun _ hs hlt => absurd hlt (Nat.not_lt.2 hs)

/-- The rules of the result are the splits of the rules of the grammar, one after the other and
without repetitions. -/
theorem Convertible.rules_binarize (hg : g.Convertible) :
    g.binarize.grammar.rules = (g.binarize.record.concat g.rules).eraseDups := by
  have hnil : ({ result := g.withoutRules } : Binarizer).Arranges g [] :=
    ⟨Binarizer.converts_nil g, rfl⟩
  have hall : g.binarizer.Arranges g g.rules :=
    Binarizer.foldl_convert_induction hnil hg.wellFormed.nodup fun done b rule hm hnew hb =>
      hb.convert hnew (knows_iff.1 (hg.valid.lhs rule hm).1)
        (fun s hs => knows_iff.1 (hg.valid.rhs rule hm s hs)) (hg.rules rule hm)
  exact hall.order

end Grammar

/-! ## Replacing introduced variables -/

namespace Operand

variable {isTerminal : Symbol → Bool}

/-- The rules of an operand, replayed on its variable, end with its leaves. -/
theorem replay_rules (op : Operand) (rest : List Symbol)
    (hrules : ∀ rule ∈ op.rules, isTerminal rule.lhs = false)
    (hfront : ∀ s ∈ op.frontier, isTerminal s = true) :
    Derivation.replay isTerminal op.rules (op.symbol :: rest) = some (op.frontier ++ rest) := by
  induction op generalizing rest with
  | plain s => rfl
  | lifted x a =>
    have hx : isTerminal x = false := hrules ⟨x, [a]⟩ (by simp [rules])
    simp [rules, symbol, frontier, Derivation.replay, Rule.applyLeftmost, hx]
  | pair x left right ihLeft ihRight =>
    have hx : isTerminal x = false := hrules ⟨x, [left.symbol, right.symbol]⟩ (by simp [rules])
    have hfrontLeft : ∀ s ∈ left.frontier, isTerminal s = true :=
      fun s hs => hfront s (by simp [frontier, hs])
    have hleft := ihLeft (right.symbol :: rest) (fun r hr => hrules r (by simp [rules, hr]))
      hfrontLeft
    have hright := ihRight rest (fun r hr => hrules r (by simp [rules, hr]))
      fun s hs => hfront s (by simp [frontier, hs])
    have happly : (⟨x, [left.symbol, right.symbol]⟩ : Rule).applyLeftmost isTerminal (x :: rest) =
        some (left.symbol :: right.symbol :: rest) := by
      rw [Rule.applyLeftmost, if_neg (by simp [hx]), if_pos rfl]
      rfl
    -- The leaves of the left part stand in front when the rules of the right part are replayed.
    rw [rules, symbol, Derivation.replay, happly, Option.bind_some, Derivation.replay_append, hleft,
      Option.bind_some, Grammar.replay_append_terminals hfrontLeft, hright, frontier,
      List.append_assoc]
    rfl

/-- The rules of operands, replayed on their variables, end with their leaves. -/
theorem replay_flatMap_rules (ops : List Operand)
    (hrules : ∀ rule ∈ ops.flatMap rules, isTerminal rule.lhs = false)
    (hfront : ∀ s ∈ ops.flatMap frontier, isTerminal s = true) :
    Derivation.replay isTerminal (ops.flatMap rules) (ops.map symbol) =
      some (ops.flatMap frontier) := by
  induction ops with
  | nil => rfl
  | cons op ops ih =>
    rw [List.flatMap_cons] at hrules hfront
    have hfrontOp : ∀ s ∈ op.frontier, isTerminal s = true :=
      fun s hs => hfront s (List.mem_append_left _ hs)
    have hop := op.replay_rules (ops.map symbol) (fun r hr => hrules r (List.mem_append_left _ hr))
      hfrontOp
    have hops := ih (fun r hr => hrules r (List.mem_append_right _ hr))
      fun s hs => hfront s (List.mem_append_right _ hs)
    rw [List.flatMap_cons, List.map_cons, Derivation.replay_append, hop, Option.bind_some,
      Grammar.replay_append_terminals hfrontOp, hops]
    rfl

/-- The rules below the top of a split are for fresh variables. -/
theorem Splits.fresh_of_mem_below {g : Grammar} {rule r : Rule} {op : Operand}
    (h : op.Splits g rule) (hr : r ∈ op.parts.flatMap rules) : g.symbols.size ≤ r.lhs.id := by
  obtain ⟨o, ho, hr⟩ := List.mem_flatMap.1 hr
  rcases h.eq_top.2.2.2 o ho with hw | ⟨a, rfl, -⟩
  · exact hw.fresh_of_mem_rules hr
  · exact absurd hr List.not_mem_nil

end Operand

/-- Replacing introduced variables, the leftmost one first, by rules of the grammar until none is
left: the derivation is the list of the rules used, in pre-order. -/
structure SplitMap.Unfolds (m : SplitMap) (g : Grammar) (d : Derivation) (form left : List Symbol) :
    Prop where
  /-- The rules are those of the grammar. -/
  mem_rules : ∀ rule ∈ d, rule ∈ g.rules
  /-- Each rule replaces the leftmost introduced variable. -/
  replays : d.replay (fun s => !m.isIntroduced s) form = some left
  /-- No introduced variable is left. -/
  settled : ∀ s ∈ left, m.isIntroduced s = false

namespace SplitMap.Unfolds

variable {m : SplitMap} {g : Grammar} {d d' : Derivation} {rule : Rule}
  {form left left' : List Symbol}

/-- The first rule replaces an introduced variable, and the others go on from there. -/
theorem exists_of_cons (h : m.Unfolds g (rule :: d) form left) :
    m.isIntroduced rule.lhs = true ∧ rule.lhs ∈ form ∧
      ∃ after, rule.applyLeftmost (fun s => !m.isIntroduced s) form = some after ∧
        m.Unfolds g d after left := by
  obtain ⟨after, happly, hrest⟩ := Option.bind_eq_some_iff.1 h.replays
  obtain ⟨u, rest, -, hl, hform, -⟩ := Grammar.exists_of_applyLeftmost happly
  refine ⟨by simpa using hl, ?_, after, happly, ?_⟩
  · rw [hform]
    exact List.mem_append_right _ List.mem_cons_self
  · exact ⟨fun r hr => h.mem_rules r (List.mem_cons_of_mem _ hr), hrest, h.settled⟩

/-- Where no introduced variable stands, nothing is replaced. -/
theorem eq_nil (h : m.Unfolds g d form left) (hform : ∀ s ∈ form, m.isIntroduced s = false) :
    d = [] := by
  cases d with
  | nil => rfl
  | cons rule d =>
    obtain ⟨hl, hmem, -⟩ := h.exists_of_cons
    rw [hform rule.lhs hmem] at hl
    exact absurd hl Bool.false_ne_true

/-- Where introduced variables have one rule each, they are replaced in one way only. -/
theorem unique (hu : ∀ rule ∈ g.rules, ∀ other ∈ g.rules, m.isIntroduced rule.lhs = true →
      other.lhs = rule.lhs → other = rule)
    (h : m.Unfolds g d form left) (h' : m.Unfolds g d' form left') : d' = d ∧ left' = left := by
  induction d generalizing form d' with
  | nil =>
    obtain rfl : form = left := Option.some.inj h.replays
    obtain rfl := h'.eq_nil h.settled
    exact ⟨rfl, (Option.some.inj h'.replays).symm⟩
  | cons rule d ih =>
    obtain ⟨hl, hmem, after, happly, hrest⟩ := h.exists_of_cons
    cases d' with
    | nil =>
      obtain rfl : form = left' := Option.some.inj h'.replays
      rw [h'.settled rule.lhs hmem] at hl
      exact absurd hl Bool.false_ne_true
    | cons rule' d' =>
      -- Both rules are for the leftmost introduced variable, which has one rule only.
      obtain ⟨-, -, after', happly', hrest'⟩ := h'.exists_of_cons
      obtain rfl : rule' = rule := hu rule (h.mem_rules rule List.mem_cons_self) rule'
        (h'.mem_rules rule' List.mem_cons_self) hl (Grammar.lhs_eq_of_applyLeftmost happly happly')
      obtain rfl : after' = after := Option.some.inj (happly'.symm.trans happly)
      obtain ⟨rfl, rfl⟩ := ih hrest hrest'
      exact ⟨rfl, rfl⟩

end SplitMap.Unfolds

namespace Grammar

variable {g : Grammar} {normal : Stage SplitMap}

namespace Convertible

/-- The variables introduced are the symbols that the grammar does not have. -/
theorem isIntroduced_iff (hg : g.Convertible) (s : Symbol) :
    g.binarize.record.isIntroduced s = true ↔
      g.knows s = false ∧ g.binarize.grammar.knows s = true := by
  rw [Bool.eq_false_iff, Ne, knows_iff, knows_iff, Nat.not_lt]
  exact hg.converts.sound.introduced s

/-- The symbols of the grammar are not introduced. -/
theorem isIntroduced_of_knows (hg : g.Convertible) {s : Symbol} (hs : g.knows s = true) :
    g.binarize.record.isIntroduced s = false := by
  rw [Bool.eq_false_iff, Ne, hg.isIntroduced_iff, hs]
  simp

/-- An introduced variable has exactly one rule. -/
theorem existsUnique_of_isIntroduced (hg : g.Convertible) {s : Symbol}
    (hs : g.binarize.record.isIntroduced s = true) :
    ∃! rule, rule ∈ g.binarize.grammar.rules ∧ rule.lhs = s := by
  obtain ⟨hle, hlt⟩ := (hg.converts.sound.introduced s).1 hs
  obtain ⟨rule, hr, rfl⟩ := g.covers_binarizer s hle hlt
  exact ⟨rule, ⟨hr, rfl⟩, fun other ho => hg.converts.sound.unique rule hr other ho.1 hle ho.2⟩

/-- A rule for a symbol of the grammar is the first one of exactly one split. -/
theorem existsUnique_head? (hg : g.Convertible) {rule : Rule}
    (hr : rule ∈ g.binarize.grammar.rules) (hs : g.knows rule.lhs = true) :
    ∃! origin, ∃ split, g.binarize.record.get? origin = some split ∧ split.head? = some rule := by
  obtain ⟨origin, op, hget, hop, rfl, -⟩ := hg.exists_top_eq hr (knows_iff.1 hs)
  refine ⟨origin, ⟨op.rules, hget, hop.head?_rules⟩, ?_⟩
  rintro other ⟨split, hget', hhead⟩
  exact hg.eq_of_head?_eq hget hop.head?_rules hget' hhead

/-- Replacing the introduced variables below the first rule of a split uses the rest of the split,
in order, and gives back the rule that was split. -/
theorem exists_unfolds (hg : g.Convertible) {rule : Rule} (hr : rule ∈ g.rules) :
    ∃ top below, g.binarize.record.get? rule = some (top :: below) ∧ top.lhs = rule.lhs ∧
      ∀ d left, g.binarize.record.Unfolds g.binarize.grammar d top.rhs left ↔
        d = below ∧ left = rule.rhs := by
  obtain ⟨split, hget⟩ := (hg.converts.recorded rule).1 hr
  obtain ⟨op, rfl, hop, hin⟩ := hg.converts.splits rule split hget
  obtain ⟨hlhs, hrules, hrhs, -⟩ := hop.eq_top
  have hbelow : ∀ r ∈ op.parts.flatMap Operand.rules, r ∈ g.binarize.grammar.rules := by
    intro r hm
    exact hin r (hrules ▸ List.mem_cons_of_mem _ hm)
  have hsettled : ∀ s ∈ rule.rhs, g.binarize.record.isIntroduced s = false :=
    fun s hs => hg.isIntroduced_of_knows (hg.valid.rhs rule hr s hs)
  have hunfolds : g.binarize.record.Unfolds g.binarize.grammar (op.parts.flatMap Operand.rules)
      op.top.rhs rule.rhs := by
    refine ⟨hbelow, ?_, hsettled⟩
    rw [hrhs] at hsettled ⊢
    refine Operand.replay_flatMap_rules op.parts (fun r hm => ?_) fun s hs => ?_
    · have hf := (hg.explains.introduced r (hbelow r hm)).2 (hop.fresh_of_mem_below hm)
      simp [hf]
    · simp [hsettled s hs]
  refine ⟨op.top, op.parts.flatMap Operand.rules, hrules ▸ hget, hlhs, fun d left => ?_⟩
  constructor
  · refine hunfolds.unique fun r hm other ho hi he => ?_
    exact (hg.existsUnique_of_isIntroduced hi).unique ⟨ho, he⟩ ⟨hm, rfl⟩
  · rintro ⟨rfl, rfl⟩
    exact hunfolds

end Convertible

/-- Where a valid grammar that is built is converted, the result is in normal form, and every
variable of the grammar derives the same words in it as before. -/
theorem toNormalForm_exact (hb : g.Built) (hv : g.validate = .ok ())
    (h : g.toNormalForm = .ok normal) :
    normal.grammar.isNormal = true ∧
      (∀ rule ∈ normal.grammar.rules,
        (∃ a, rule.rhs = [a] ∧ normal.grammar.isTerminal a = true) ∨
          ∃ left right, rule.rhs = [left, right] ∧ normal.grammar.isTerminal left = false ∧
            normal.grammar.isTerminal right = false) ∧
      ∀ s word, g.knows s = true → g.isTerminal s = false →
        (normal.grammar.Yields s word ↔ g.Yields s word) := by
  obtain ⟨rfl, hrules⟩ := eq_binarize_of_toNormalForm h
  have hconv : g.Convertible := ⟨hb.wellFormed, validate_eq_ok_iff.1 hv, hrules⟩
  refine ⟨hconv.isNormal, fun rule hr => ?_, fun s word hk ht => ?_⟩
  · exact isNormalRule_iff.1 (List.all_eq_true.1 hconv.isNormal rule hr)
  · have ht' : g.binarize.grammar.isTerminal s = false := hconv.isTerminal_eq ▸ ht
    rw [yields_iff_spells ht', yields_iff_spells ht]
    exact hconv.spells_binarize_iff hk ht

/-- The word `a a b b` is derived by the rules of the result, since it was by the rules before. -/
theorem toNormalForm_exact_nesting :
    nesting.validate = .ok () ∧ ∃ normal, nesting.toNormalForm = .ok normal ∧
      normal.grammar.size = 6 ∧ normal.grammar.isNormal = true ∧
      normal.grammar.Yields ⟨0⟩ [⟨2⟩, ⟨2⟩, ⟨3⟩, ⟨3⟩] := by
  have hv : nesting.validate = .ok () := by decide +kernel
  have hconverts : nesting.toNormalForm.toOption.any (fun normal =>
      decide (normal.grammar.size = 6)) = true := by
    decide +kernel
  obtain ⟨normal, hnormal, hsix⟩ := Run.exists_eq_ok_of_any hconverts
  rw [decide_eq_true_eq] at hsix
  obtain ⟨hn, -, hyields⟩ := toNormalForm_exact nesting_built hv hnormal
  have hknows : nesting.knows ⟨0⟩ = true := by decide +kernel
  have hvar : nesting.isTerminal ⟨0⟩ = false := by decide +kernel
  have hword : nesting.LeftmostDerivation [⟨⟨0⟩, [⟨2⟩, ⟨0⟩, ⟨3⟩]⟩, ⟨⟨0⟩, [⟨2⟩, ⟨3⟩]⟩] ⟨0⟩
      [⟨2⟩, ⟨2⟩, ⟨3⟩, ⟨3⟩] := by
    decide +kernel
  refine ⟨hv, normal, hnormal, hsix, hn, (hyields _ _ hknows hvar).2 ?_⟩
  exact (yields_iff_spells hvar).2 (leftmostDerivation_iff.1 hword).spells

/-- Where a valid grammar that is built is converted, the record is exact. It has an entry for each
rule of the grammar and no other, and the rules of the result are the splits in the order of these
rules, without repetitions. The variables introduced are the new symbols, and each has exactly one
rule. A rule for any other variable is the first one of exactly one split. Replacing the introduced
variables on the right-hand side of the first rule of a split by their rules can be done in one way
only: it uses the rest of the split in order, and ends with the right-hand side of the rule that was
split. -/
theorem splitRecord_exact (hb : g.Built) (hv : g.validate = .ok ())
    (h : g.toNormalForm = .ok normal) :
    (∀ rule, (∃ split, normal.record.get? rule = some split) ↔ rule ∈ g.rules) ∧
      normal.grammar.rules = (normal.record.concat g.rules).eraseDups ∧
      (∀ s, normal.record.isIntroduced s = true ↔
        g.knows s = false ∧ normal.grammar.knows s = true) ∧
      (∀ s, normal.record.isIntroduced s = true →
        ∃! rule, rule ∈ normal.grammar.rules ∧ rule.lhs = s) ∧
      (∀ rule ∈ normal.grammar.rules, g.knows rule.lhs = true →
        ∃! origin, ∃ split, normal.record.get? origin = some split ∧ split.head? = some rule) ∧
      ∀ rule ∈ g.rules, ∃ top below, normal.record.get? rule = some (top :: below) ∧
        top.lhs = rule.lhs ∧ ∀ d left, normal.record.Unfolds normal.grammar d top.rhs left ↔
          d = below ∧ left = rule.rhs := by
  obtain ⟨rfl, hrules⟩ := eq_binarize_of_toNormalForm h
  have hconv : g.Convertible := ⟨hb.wellFormed, validate_eq_ok_iff.1 hv, hrules⟩
  exact ⟨fun rule => (hconv.converts.recorded rule).symm, hconv.rules_binarize,
    hconv.isIntroduced_iff, fun s => hconv.existsUnique_of_isIntroduced,
    fun rule => hconv.existsUnique_head?, fun rule => hconv.exists_unfolds⟩

/-- The rule `S → a S b` is split in four, and `S → a b` in three of which two were made before. The
split of the first one has `S → X Y` on top, and replacing `X` and `Y` gives `a S b` again. -/
theorem splitRecord_exact_nesting :
    nesting.validate = .ok () ∧ ∃ normal, nesting.toNormalForm = .ok normal ∧
      normal.grammar.rules = [⟨⟨0⟩, [⟨5⟩, ⟨6⟩]⟩, ⟨⟨5⟩, [⟨4⟩, ⟨0⟩]⟩, ⟨⟨4⟩, [⟨2⟩]⟩, ⟨⟨6⟩, [⟨3⟩]⟩,
        ⟨⟨0⟩, [⟨4⟩, ⟨6⟩]⟩, ⟨⟨1⟩, [⟨1⟩, ⟨1⟩]⟩] ∧
      normal.record.get? ⟨⟨0⟩, [⟨2⟩, ⟨3⟩]⟩ =
        some [⟨⟨0⟩, [⟨4⟩, ⟨6⟩]⟩, ⟨⟨4⟩, [⟨2⟩]⟩, ⟨⟨6⟩, [⟨3⟩]⟩] ∧
      (∃! rule, rule ∈ normal.grammar.rules ∧ rule.lhs = ⟨4⟩) ∧
      normal.record.Unfolds normal.grammar [⟨⟨5⟩, [⟨4⟩, ⟨0⟩]⟩, ⟨⟨4⟩, [⟨2⟩]⟩, ⟨⟨6⟩, [⟨3⟩]⟩]
        [⟨5⟩, ⟨6⟩] [⟨2⟩, ⟨0⟩, ⟨3⟩] := by
  have hv : nesting.validate = .ok () := by decide +kernel
  have hconverts : nesting.toNormalForm.toOption.any (fun normal =>
      decide (normal.grammar.rules = [⟨⟨0⟩, [⟨5⟩, ⟨6⟩]⟩, ⟨⟨5⟩, [⟨4⟩, ⟨0⟩]⟩, ⟨⟨4⟩, [⟨2⟩]⟩,
        ⟨⟨6⟩, [⟨3⟩]⟩, ⟨⟨0⟩, [⟨4⟩, ⟨6⟩]⟩, ⟨⟨1⟩, [⟨1⟩, ⟨1⟩]⟩] ∧
        normal.record.get? ⟨⟨0⟩, [⟨2⟩, ⟨0⟩, ⟨3⟩]⟩ = some [⟨⟨0⟩, [⟨5⟩, ⟨6⟩]⟩, ⟨⟨5⟩, [⟨4⟩, ⟨0⟩]⟩,
          ⟨⟨4⟩, [⟨2⟩]⟩, ⟨⟨6⟩, [⟨3⟩]⟩] ∧
        normal.record.get? ⟨⟨0⟩, [⟨2⟩, ⟨3⟩]⟩ =
          some [⟨⟨0⟩, [⟨4⟩, ⟨6⟩]⟩, ⟨⟨4⟩, [⟨2⟩]⟩, ⟨⟨6⟩, [⟨3⟩]⟩] ∧
        normal.record.isIntroduced ⟨4⟩ = true)) = true := by
    decide +kernel
  obtain ⟨normal, hnormal, hfacts⟩ := Run.exists_eq_ok_of_any hconverts
  rw [decide_eq_true_eq] at hfacts
  obtain ⟨hrules, hlong, hshort, hfour⟩ := hfacts
  obtain ⟨-, -, -, hunique, -, hunfolds⟩ := splitRecord_exact nesting_built hv hnormal
  obtain ⟨top, below, hget, -, hall⟩ := hunfolds ⟨⟨0⟩, [⟨2⟩, ⟨0⟩, ⟨3⟩]⟩ (by decide +kernel)
  obtain ⟨rfl, rfl⟩ := List.cons.inj (Option.some.inj (hget.symm.trans hlong))
  exact ⟨hv, normal, hnormal, hrules, hshort, hunique _ hfour, (hall _ _).2 ⟨rfl, rfl⟩⟩

end Grammar

end ContextFree
