import ContextFree.Proofs.Grammar.Construction
import ContextFree.Proofs.Normal.Stage
import ContextFree.Proofs.Provenance.Group

/-!
# Splitting into normal form keeps the language

While the rules are converted one after the other, fresh variables are numbered behind the symbols
of the grammar, and each of them has one rule only (`Binarizer.Sound`). The list of the rules made
comes first in this statement since a tree of operands is finished before any of its rules is added.
Every step keeps it: making a variable, making an operand, joining operands and recording the split.
What is known of the single steps carries over to a whole conversion (`Binarizer.Kept.binarizer`).
What the conversion records for a rule is a tree that the rule splits into (`Binarizer.Converts`),
so the record accounts for the rules of the result (`Grammar.Convertible.explains`), these are in
normal form, and a variable of the grammar derives the same words as before
(`Grammar.Convertible.spells_binarize_iff`).
-/

namespace ContextFree

namespace Binarizer

/-- The conversion is sound: its fresh variables are those from the size of the grammar on, and each
of them has at most one of the rules made so far. -/
structure Sound (g : Grammar) (made : List Rule) (b : Binarizer) : Prop where
  /-- The terminals are those of the grammar. -/
  terminals : b.result.terminals = g.terminals
  /-- The start symbol is that of the grammar. -/
  start : b.result.start = g.start
  /-- No symbol of the grammar is lost. -/
  size_le : g.symbols.size ≤ b.result.symbols.size
  /-- The variables introduced are the ones made since. -/
  introduced : ∀ s, b.split.isIntroduced s = true ↔
    g.symbols.size ≤ s.id ∧ s.id < b.result.symbols.size
  /-- Rules are made for variables that were made before. -/
  lhs_lt : ∀ rule ∈ made, rule.lhs.id < b.result.symbols.size
  /-- A fresh variable has one rule only. -/
  unique : ∀ rule ∈ made, ∀ other ∈ made,
    g.symbols.size ≤ rule.lhs.id → other.lhs = rule.lhs → other = rule
  /-- The variable kept for a terminal is fresh and derives that terminal. -/
  wrappers : ∀ a x, (a, x) ∈ b.wrappers → g.symbols.size ≤ x.id ∧ ⟨x, [a]⟩ ∈ made

variable {g : Grammar} {b : Binarizer} {made made' : List Rule}

/-- Only the set of the rules made matters. -/
theorem Sound.of_mem_iff (h : b.Sound g made) (hm : ∀ rule, rule ∈ made' ↔ rule ∈ made) :
    b.Sound g made' where
  terminals := h.terminals
  start := h.start
  size_le := h.size_le
  introduced := h.introduced
  lhs_lt rule hr := h.lhs_lt rule ((hm rule).1 hr)
  unique rule hr other ho := h.unique rule ((hm rule).1 hr) other ((hm other).1 ho)
  wrappers a x hx := ⟨(h.wrappers a x hx).1, (hm _).2 (h.wrappers a x hx).2⟩

/-- One more rule is fine for a variable of the grammar, and for a fresh one that has none yet. -/
theorem Sound.cons (h : b.Sound g made) {rule : Rule} (hlt : rule.lhs.id < b.result.symbols.size)
    (hnew : rule.lhs.id < g.symbols.size ∨ ∀ other ∈ made, other.lhs ≠ rule.lhs) :
    b.Sound g (rule :: made) where
  terminals := h.terminals
  start := h.start
  size_le := h.size_le
  introduced := h.introduced
  lhs_lt r hr := by
    rcases List.mem_cons.1 hr with rfl | hr
    · exact hlt
    · exact h.lhs_lt r hr
  unique r hr other ho hf he := by
    -- The rule added can only meet itself: a fresh variable that it is for had none before.
    rcases List.mem_cons.1 hr with hr' | hr'
    · rcases List.mem_cons.1 ho with ho' | ho'
      · rw [hr', ho']
      · rcases hnew with hnew | hnew
        · rw [hr'] at hf
          omega
        · exact absurd (hr' ▸ he) (hnew other ho')
    · rcases List.mem_cons.1 ho with ho' | ho'
      · rcases hnew with hnew | hnew
        · rw [← he, ho'] at hf
          omega
        · exact absurd (ho' ▸ he.symm) (hnew r hr')
      · exact h.unique r hr' other ho' hf he
  wrappers a x hx := ⟨(h.wrappers a x hx).1, List.mem_cons_of_mem _ (h.wrappers a x hx).2⟩

/-- A symbol is a terminal in the result exactly when it is one of the grammar. -/
theorem Sound.isTerminal_eq (h : b.Sound g made) : b.result.isTerminal = g.isTerminal := by
  funext s
  rw [Grammar.isTerminal, h.terminals]
  rfl

theorem size_fresh (b : Binarizer) :
    b.fresh.2.result.symbols.size = b.result.symbols.size + 1 := SymbolTable.size_add ..

/-- Recording a split changes nothing in the grammar but the rules. -/
theorem result_record (b : Binarizer) (rule : Rule) (split : Derivation) :
    (b.record rule split).result =
      { b.result with rules := (b.record rule split).result.rules } := Grammar.addRules_eq ..

theorem rules_operand (b : Binarizer) (s : Symbol) :
    (b.operand s).2.result.rules = b.result.rules := by
  unfold Binarizer.operand
  split
  · split
    · rfl
    · rfl
  · rfl

theorem rules_join (b : Binarizer) (lhs : Symbol) (left : Operand) (rest : List Symbol) :
    (b.join lhs left rest).2.result.rules = b.result.rules := by
  induction rest generalizing b left with
  | nil => rfl
  | cons s rest ih =>
    cases rest with
    | nil => exact b.rules_operand s
    | cons s' rest => exact (ih ..).trans (b.fresh.2.rules_operand s)

/-- A property of a conversion and of the rules made in it that holds after every step if it held
before, in the conversion of a rule for `lhs`. -/
structure Kept (lhs : Symbol) (P : List Rule → Binarizer → Prop) : Prop where
  /-- Only the set of the rules made matters. -/
  of_mem_iff : ∀ {made made' : List Rule} {b : Binarizer},
    (∀ rule, rule ∈ made' ↔ rule ∈ made) → P made b → P made' b
  /-- A variable is made and gets a rule with two symbols. -/
  fresh : ∀ {made : List Rule} {b : Binarizer} (left right : Symbol),
    P made b → P (⟨b.fresh.1, [left, right]⟩ :: made) b.fresh.2
  /-- An operand is made for a symbol. -/
  operand : ∀ {made : List Rule} {b : Binarizer} (s : Symbol),
    P made b → P ((b.operand s).1.rules ++ made) (b.operand s).2
  /-- A rule is made for the left-hand side of the rule that is converted. -/
  cons : ∀ {made : List Rule} {b : Binarizer} (rhs : List Symbol),
    P made b → P (⟨lhs, rhs⟩ :: made) b
  /-- A split is recorded. -/
  record : ∀ {made : List Rule} {b : Binarizer} (rule : Rule) (split : Derivation),
    P made b → P made (b.record rule split)

section Kept

variable {lhs : Symbol} {P : List Rule → Binarizer → Prop}

/-- A property of two operands and the rule that joins them holds of the joined operand. -/
theorem Kept.pair (hP : Kept lhs P) {x : Symbol} {left right : Operand}
    (h : P (right.rules ++ (⟨x, [left.symbol, right.symbol]⟩ :: (left.rules ++ made))) b) :
    P ((Operand.pair x left right).rules ++ made) b := by
  refine hP.of_mem_iff (fun rule => ?_) h
  simp only [Operand.rules, List.mem_append, List.cons_append, List.mem_cons]
  tauto

/-- Joining operands keeps what every step keeps. -/
theorem Kept.join (hP : Kept lhs P) {left : Operand} (h : P (left.rules ++ made) b)
    (rest : List Symbol) :
    P ((b.join lhs left rest).1.rules ++ made) (b.join lhs left rest).2 := by
  fun_induction Binarizer.join b lhs left rest with
  | case1 => exact h
  | case2 b left last right b' hright =>
    have hlast := hP.operand last (hP.cons [left.symbol, right.symbol] h)
    rw [hright] at hlast
    exact hP.pair hlast
  | case3 b left s rest hne middle b' hmiddle right b'' hright ih =>
    have hnext := hP.operand s (hP.fresh left.symbol right.symbol h)
    rw [hmiddle, hright] at hnext
    exact ih (hP.pair hnext)

/-- Converting a rule keeps what every step keeps. -/
theorem Kept.convert {rule : Rule} (hP : Kept rule.lhs P) (h : P b.result.rules b) :
    P (b.convert rule).result.rules (b.convert rule) := by
  have hrecord {split : Derivation} {b' : Binarizer} (hr : b'.result.rules = b.result.rules)
      (h' : P (split ++ b.result.rules) b') :
      P (b'.record rule split).result.rules (b'.record rule split) := by
    refine hP.of_mem_iff (fun r => ?_) (hP.record rule split h')
    rw [Binarizer.record, Grammar.mem_rules_addRules, hr, List.mem_append, or_comm]
  unfold Binarizer.convert
  by_cases hn : b.result.isNormalRule rule = true
  · rw [if_pos hn]
    exact hrecord rfl (hP.cons rule.rhs h)
  · rw [if_neg hn]
    unfold tree?
    cases rule.rhs with
    | nil => exact h
    | cons first rest =>
      have hrules : ((b.operand first).2.join rule.lhs (b.operand first).1 rest).2.result.rules =
          b.result.rules := (rules_join ..).trans (b.rules_operand first)
      exact hrecord hrules (hP.join (hP.operand first h) rest)

/-- What every step keeps holds at the end if it holds before the first rule is converted. -/
theorem Kept.binarizer (hP : ∀ rule ∈ g.rules, Kept rule.lhs P)
    (h : P [] { result := g.withoutRules }) : P g.binarizer.result.rules g.binarizer :=
  List.foldlRecOn (motive := fun b => P b.result.rules b) g.rules Binarizer.convert h
    fun _ hb rule hr => (hP rule hr).convert hb

end Kept

/-- The next variable has no rule yet. -/
theorem Sound.lhs_ne_fresh (h : b.Sound g made) : ∀ rule ∈ made, rule.lhs ≠ b.fresh.1 := by
  intro rule hr he
  have hlt := h.lhs_lt rule hr
  rw [he] at hlt
  exact absurd hlt (Nat.lt_irrefl _)

/-- Making a variable keeps a conversion sound. -/
theorem Sound.fresh (h : b.Sound g made) : b.fresh.2.Sound g made where
  terminals := h.terminals
  start := h.start
  size_le := by
    have := h.size_le
    rw [size_fresh]
    omega
  introduced s := by
    have hmark : b.fresh.2.split.isIntroduced s = true ↔
        s = b.fresh.1 ∨ b.split.isIntroduced s = true := by
      simp [Binarizer.fresh, SplitMap.isIntroduced, SplitMap.markIntroduced]
    have hnext : s = b.fresh.1 ↔ s.id = b.result.symbols.size :=
      ⟨fun e => congrArg Symbol.id e, fun e => Symbol.ext e⟩
    have := h.size_le
    rw [hmark, hnext, h.introduced, size_fresh]
    omega
  lhs_lt rule hr := by
    have := h.lhs_lt rule hr
    rw [size_fresh]
    omega
  unique := h.unique
  wrappers := h.wrappers

/-- What making an operand does: no rule is added and no split recorded, and the conversion is sound
together with the rules made for the operand. -/
structure Makes (g : Grammar) (made : List Rule) (b : Binarizer) (op : Operand) (b' : Binarizer) :
    Prop where
  /-- The rules added so far stay as they are. -/
  rules : b'.result.rules = b.result.rules
  /-- The splits recorded so far stay as they are. -/
  splits : b'.split.splits = b.split.splits
  /-- No symbol is lost. -/
  size_le : b.result.symbols.size ≤ b'.result.symbols.size
  /-- The rules made for the operand are fine. -/
  sound : b'.Sound g (op.rules ++ made)

/-- A symbol of the grammar becomes an operand that stands for it. Any rule made for that is for a
variable that was not there before. -/
theorem Sound.operand (h : b.Sound g made) {s : Symbol} (hs : s.id < g.symbols.size) :
    (b.operand s).1.Within g ∧ (b.operand s).1.frontier = [s] ∧
      Makes g made b (b.operand s).1 (b.operand s).2 ∧
      ∀ rule ∈ (b.operand s).1.rules, rule ∈ made ∨ b.result.symbols.size ≤ rule.lhs.id := by
  unfold Binarizer.operand
  rw [h.isTerminal_eq]
  by_cases ht : g.isTerminal s = true
  · rw [if_pos ht]
    cases hw : b.wrappers.lookup s with
    | some x =>
      -- The terminal has a variable, whose rule was made with it.
      obtain ⟨before, after, hwrappers, -⟩ := List.lookup_eq_some_iff.1 hw
      obtain ⟨hf, hin⟩ := h.wrappers s x (by simp [hwrappers])
      have hmem : ∀ rule ∈ (Operand.lifted x s).rules, rule ∈ made := by
        intro rule hr
        rwa [List.mem_singleton.1 hr]
      refine ⟨.lifted hf ht, rfl, ⟨rfl, rfl, Nat.le_refl _, ?_⟩, fun r hr => .inl (hmem r hr)⟩
      refine h.of_mem_iff fun rule => ?_
      rw [List.mem_append]
      exact ⟨fun hr => hr.elim (hmem rule) id, .inr⟩
    | none =>
      -- The terminal gets a variable of its own, which is kept for the next time.
      have hlt : b.fresh.1.id < b.fresh.2.result.symbols.size := by
        rw [size_fresh]
        exact Nat.lt_succ_self _
      have hmade : b.fresh.2.Sound g (⟨b.fresh.1, [s]⟩ :: made) :=
        h.fresh.cons hlt (.inr h.lhs_ne_fresh)
      refine ⟨.lifted h.size_le ht, rfl, ⟨rfl, rfl, Nat.le_of_lt hlt, ?_⟩, fun rule hr => .inr ?_⟩
      · exact {
          hmade with
          wrappers := fun a x hx => by
            rcases List.mem_cons.1 hx with hx | hx
            · obtain ⟨rfl, rfl⟩ := Prod.mk.inj hx
              exact ⟨h.size_le, List.mem_cons_self⟩
            · exact hmade.wrappers a x hx }
      · rw [List.mem_singleton.1 hr]
        exact Nat.le_refl _
  · rw [if_neg ht]
    have hv : g.isTerminal s = false := by simpa using ht
    exact ⟨.plain hs hv, rfl, ⟨rfl, rfl, Nat.le_refl _, h⟩, fun r hr => absurd hr List.not_mem_nil⟩

/-- The rules made for two operands and the rule that joins them are fine if that rule is. -/
theorem Sound.pair {left right : Operand} {lhs : Symbol} (h : b.Sound g (right.rules ++ made))
    (hleft : ∀ rule ∈ left.rules, rule ∈ made) (hlt : lhs.id < b.result.symbols.size)
    (hnew : lhs.id < g.symbols.size ∨ ∀ other ∈ right.rules ++ made, other.lhs ≠ lhs) :
    b.Sound g ((Operand.pair lhs left right).rules ++ made) := by
  have hcons : b.Sound g (⟨lhs, [left.symbol, right.symbol]⟩ :: (right.rules ++ made)) :=
    h.cons hlt hnew
  refine hcons.of_mem_iff fun rule => ?_
  simp only [Operand.rules, List.cons_append, List.append_assoc, List.mem_cons,
    List.mem_append]
  exact or_congr_right ⟨fun hr => hr.elim (fun hl => .inr (hleft rule hl)) id, .inr⟩

/-- Rules made for an operand on the way to a larger one are among those of the larger one. -/
theorem Sound.absorb {inner op : Operand} (h : b.Sound g (op.rules ++ (inner.rules ++ made)))
    (hsub : ∀ rule ∈ inner.rules, rule ∈ op.rules) : b.Sound g (op.rules ++ made) := by
  refine h.of_mem_iff fun rule => ?_
  rw [List.mem_append, List.mem_append, List.mem_append]
  exact ⟨fun hr => hr.imp_right .inr, fun hr => hr.elim .inl (.imp_left (hsub rule))⟩

/-- A fresh variable replaced by an operand and the next symbol is an operand that stands for
both. -/
theorem Sound.pairFresh (h : b.Sound g made) {left : Operand} (hw : left.Within g)
    (hleft : ∀ rule ∈ left.rules, rule ∈ made) {s : Symbol} (hs : s.id < g.symbols.size) :
    (Operand.pair b.fresh.1 left (b.fresh.2.operand s).1).Within g ∧
      (Operand.pair b.fresh.1 left (b.fresh.2.operand s).1).frontier = left.frontier ++ [s] ∧
      Makes g made b (.pair b.fresh.1 left (b.fresh.2.operand s).1) (b.fresh.2.operand s).2 := by
  obtain ⟨hright, hfront, hmakes, hlater⟩ := h.fresh.operand hs
  have hsize := size_fresh b
  have hsize_le := hmakes.size_le
  -- The variable for the pair has no rule yet: the operand's rules are for later ones.
  have hnew : ∀ other ∈ (b.fresh.2.operand s).1.rules ++ made, other.lhs ≠ b.fresh.1 := by
    intro other ho he
    rcases List.mem_append.1 ho with ho | ho
    · rcases hlater other ho with hm | hle
      · exact h.lhs_ne_fresh other hm he
      · rw [he, hsize] at hle
        exact absurd hle (Nat.not_succ_le_self _)
    · exact h.lhs_ne_fresh other ho he
  have hlt : b.fresh.1.id < (b.fresh.2.operand s).2.result.symbols.size := by
    rw [hsize] at hsize_le
    exact hsize_le
  refine ⟨.pair h.size_le hw hright, by rw [Operand.frontier, hfront], hmakes.rules, hmakes.splits,
    ?_, hmakes.sound.pair hleft hlt (.inr hnew)⟩
  omega

/-- Joining an operand with the symbols that follow it makes an operand of two parts that stands for
all of them. -/
theorem Sound.join (h : b.Sound g made) {lhs : Symbol} (hl : lhs.id < g.symbols.size)
    {left : Operand} (hw : left.Within g) (hleft : ∀ rule ∈ left.rules, rule ∈ made)
    {rest : List Symbol} (hrest : rest ≠ []) (hk : ∀ s ∈ rest, s.id < g.symbols.size) :
    ∃ first second : Operand, (b.join lhs left rest).1 = .pair lhs first second ∧
      first.Within g ∧ second.Within g ∧
      first.frontier ++ second.frontier = left.frontier ++ rest ∧
      (∀ rule ∈ left.rules, rule ∈ (b.join lhs left rest).1.rules) ∧
      Makes g made b (b.join lhs left rest).1 (b.join lhs left rest).2 := by
  induction rest generalizing b left made with
  | nil => exact absurd rfl hrest
  | cons s rest ih =>
    have hs : s.id < g.symbols.size := hk s (by simp)
    cases rest with
    | nil =>
      have hstep : b.join lhs left [s] = (.pair lhs left (b.operand s).1, (b.operand s).2) := rfl
      obtain ⟨hright, hfront, hmakes, -⟩ := h.operand hs
      have hlt : lhs.id < (b.operand s).2.result.symbols.size :=
        Nat.lt_of_lt_of_le hl (Nat.le_trans h.size_le hmakes.size_le)
      rw [hstep]
      refine ⟨left, (b.operand s).1, rfl, hw, hright, by rw [hfront], fun rule hr => ?_, ?_⟩
      · simp [Operand.rules, hr]
      · exact ⟨hmakes.rules, hmakes.splits, hmakes.size_le, hmakes.sound.pair hleft hlt (.inl hl)⟩
    | cons s' rest =>
      have hstep : b.join lhs left (s :: s' :: rest) = (b.fresh.2.operand s).2.join lhs
          (.pair b.fresh.1 left (b.fresh.2.operand s).1) (s' :: rest) := rfl
      obtain ⟨hpairWithin, hfront, hmakes⟩ := h.pairFresh hw hleft hs
      obtain ⟨first, second, hpair, hfirst, hsecond, hall, hsub, hmakes'⟩ :=
        ih hmakes.sound hpairWithin (fun rule hr => List.mem_append_left _ hr) (by simp)
          fun t ht => hk t (by simp [ht])
      rw [hstep]
      refine ⟨first, second, hpair, hfirst, hsecond, ?_, fun rule hr => hsub rule ?_, ?_⟩
      · rw [hall, hfront, List.append_assoc, List.singleton_append]
      · simp [Operand.rules, hr]
      · exact ⟨hmakes'.rules.trans hmakes.rules, hmakes'.splits.trans hmakes.splits,
          Nat.le_trans hmakes.size_le hmakes'.size_le, hmakes'.sound.absorb hsub⟩

end Binarizer

namespace Grammar

variable {g : Grammar} {rule : Rule}

/-- A rule can be converted if it has a right-hand side that is no single variable. -/
theorem conversionError?_eq_none_iff :
    g.conversionError? rule = none ↔ rule.rhs ≠ [] ∧ g.isUnitRule rule = false := by
  unfold conversionError? isUnitRule Rule.isNulling
  cases hrhs : rule.rhs with
  | nil => simp
  | cons s rest => simp

/-- A rule in normal form is split into itself. -/
theorem exists_splits_of_isNormalRule (h : g.isNormalRule rule = true)
    (hk : ∀ s ∈ rule.rhs, s.id < g.symbols.size) :
    ∃ op : Operand, op.Splits g rule ∧ op.rules = [rule] := by
  obtain ⟨lhs, rhs⟩ := rule
  rcases isNormalRule_iff.1 h with ⟨a, rfl, ha⟩ | ⟨b, c, rfl, hb, hc⟩
  · exact ⟨.lifted lhs a, .lifted ha rfl, rfl⟩
  · have hleft : (Operand.plain b).Within g := .plain (hk b (by simp)) hb
    have hright : (Operand.plain c).Within g := .plain (hk c (by simp)) hc
    exact ⟨.pair lhs (.plain b) (.plain c), .pair hleft hright rfl, rfl⟩

end Grammar

namespace Binarizer

variable {g : Grammar} {b : Binarizer} {rule : Rule} {done : List Rule}

/-- Converting a rule records a tree that it splits into, and adds the rules of the tree. -/
theorem Sound.convert (h : b.Sound g b.result.rules) (hl : rule.lhs.id < g.symbols.size)
    (hk : ∀ s ∈ rule.rhs, s.id < g.symbols.size) (hr : g.conversionError? rule = none) :
    ∃ (op : Operand) (b' : Binarizer), b.convert rule = b'.record rule op.rules ∧
      op.Splits g rule ∧ Makes g b.result.rules b op b' := by
  rw [Binarizer.convert, Grammar.isNormalRule_congr h.isTerminal_eq]
  by_cases hn : g.isNormalRule rule = true
  · rw [if_pos hn]
    obtain ⟨op, hsplits, hrules⟩ := Grammar.exists_splits_of_isNormalRule hn hk
    refine ⟨op, b, by rw [hrules], hsplits, rfl, rfl, Nat.le_refl _, ?_⟩
    rw [hrules]
    exact h.cons (Nat.lt_of_lt_of_le hl h.size_le) (.inl hl)
  · rw [if_neg hn]
    obtain ⟨hne, hunit⟩ := Grammar.conversionError?_eq_none_iff.1 hr
    cases hrhs : rule.rhs with
    | nil => exact absurd hrhs hne
    | cons first rest =>
      have hrest : rest ≠ [] := by
        rintro rfl
        -- A single symbol would be a terminal or make the rule a unit rule.
        refine hn (Grammar.isNormalRule_iff.2 (.inl ⟨first, hrhs, ?_⟩))
        simpa [Grammar.isUnitRule, Grammar.unitTarget?, hrhs, Grammar.isVariable] using hunit
      have htree : b.tree? rule =
          some ((b.operand first).2.join rule.lhs (b.operand first).1 rest) := by
        rw [tree?, hrhs]
      rw [hrhs] at hk
      obtain ⟨hleft, hfront, hmakes, -⟩ := h.operand (hk first (by simp))
      obtain ⟨left, right, hpair, hwl, hwr, hall, hsub, hmakes'⟩ := hmakes.sound.join hl hleft
        (fun r hr => List.mem_append_left _ hr) hrest fun s hs => hk s (by simp [hs])
      rw [htree]
      refine ⟨_, _, rfl, ?_, hmakes'.rules.trans hmakes.rules, hmakes'.splits.trans hmakes.splits,
        Nat.le_trans hmakes.size_le hmakes'.size_le, hmakes'.sound.absorb hsub⟩
      rw [hpair]
      refine .pair hwl hwr ?_
      rw [hall, hfront, hrhs]
      rfl

/-- The conversion of the rules of a grammar that are done: each of them is recorded with the rules
of a tree that it splits into, and these are all the rules there are. -/
structure Converts (g : Grammar) (done : List Rule) (b : Binarizer) : Prop where
  /-- The fresh variables have one rule each. -/
  sound : b.Sound g b.result.rules
  /-- The rules done are the ones recorded. -/
  recorded : ∀ rule, rule ∈ done ↔ ∃ split, b.split.get? rule = some split
  /-- What is recorded are the rules of a tree. -/
  splits : ∀ rule split, b.split.get? rule = some split →
    ∃ op : Operand, split = op.rules ∧ op.Splits g rule ∧ ∀ r ∈ op.rules, r ∈ b.result.rules
  /-- There are no other rules. -/
  made : ∀ r ∈ b.result.rules, ∃ rule split, b.split.get? rule = some split ∧ r ∈ split

/-- Before the first rule nothing was made and nothing recorded. -/
theorem converts_nil (g : Grammar) :
    ({ result := g.withoutRules } : Binarizer).Converts g [] where
  sound := {
    terminals := rfl
    start := rfl
    size_le := Nat.le_refl _
    introduced := fun s => by
      have hnone : ({ result := g.withoutRules } : Binarizer).split.isIntroduced s = false := by
        rw [Bool.eq_false_iff]
        exact fun h => absurd (SymbolSet.contains_iff.1 h) SymbolSet.not_mem_empty
      have hsize : g.withoutRules.symbols.size = g.symbols.size := rfl
      rw [hnone, hsize]
      simp
    lhs_lt := fun _ h => absurd h List.not_mem_nil
    unique := fun _ h => absurd h List.not_mem_nil
    wrappers := fun _ _ h => absurd h List.not_mem_nil }
  recorded := fun rule => by simp [SplitMap.get?, SplitMap.empty]
  splits := fun rule split h => by simp [SplitMap.get?, SplitMap.empty] at h
  made := fun _ h => absurd h List.not_mem_nil

/-- Recording a split adds rules, and makes neither symbols nor terminals. -/
theorem Sound.record {made : List Rule} (h : b.Sound g made) (rule : Rule) (split : Derivation) :
    (b.record rule split).Sound g made := by
  refine ⟨?_, ?_, ?_, ?_, ?_, h.unique, h.wrappers⟩
  · rw [result_record]
    exact h.terminals
  · rw [result_record]
    exact h.start
  · rw [result_record]
    exact h.size_le
  · rw [result_record]
    exact h.introduced
  · rw [result_record]
    exact h.lhs_lt

/-- After a split is recorded, it is found for its rule and nothing changes for any other. -/
theorem get?_record (b : Binarizer) (rule r : Rule) (split : Derivation) :
    (b.record rule split).split.get? r = if r = rule then some split else b.split.get? r := by
  have hinsert : (b.record rule split).split.get? r =
      if compare rule r = .eq then some split else b.split.splits[r]? := Std.TreeMap.getElem?_insert
  rw [hinsert]
  by_cases he : r = rule
  · rw [if_pos he, if_pos (he ▸ Std.ReflCmp.compare_self)]
  · rw [if_neg he, if_neg fun hc => he (Std.LawfulEqOrd.eq_of_compare hc).symm]
    rfl

/-- After what was made for a rule is recorded, it is found for the rule, and nothing changes for
any other. -/
theorem Makes.get?_record {made : List Rule} {op : Operand} {b' : Binarizer}
    (h : Makes g made b op b') (rule r : Rule) :
    (b'.record rule op.rules).split.get? r =
      if r = rule then some op.rules else b.split.get? r := by
  rw [Binarizer.get?_record, SplitMap.get?, SplitMap.get?, h.splits]

/-- Converting one more rule keeps this. -/
theorem Converts.convert (h : b.Converts g done) (hnew : rule ∉ done)
    (hl : rule.lhs.id < g.symbols.size) (hk : ∀ s ∈ rule.rhs, s.id < g.symbols.size)
    (hr : g.conversionError? rule = none) : (b.convert rule).Converts g (done ++ [rule]) := by
  obtain ⟨op, b', hconvert, hop, hmakes⟩ := h.sound.convert hl hk hr
  have hget : ∀ r, (b.convert rule).split.get? r =
      if r = rule then some op.rules else b.split.get? r := by
    intro r
    rw [hconvert, hmakes.get?_record]
  have hrules : ∀ r, r ∈ (b.convert rule).result.rules ↔ r ∈ op.rules ∨ r ∈ b.result.rules := by
    intro r
    rw [hconvert, record, Grammar.mem_rules_addRules, hmakes.rules, or_comm]
  -- The rule has no entry yet, so the entries there were are still found.
  have hkeep : ∀ r split, b.split.get? r = some split →
      (b.convert rule).split.get? r = some split := by
    intro r split hs
    have hne : r ≠ rule := by
      rintro rfl
      exact hnew ((h.recorded r).2 ⟨split, hs⟩)
    rw [hget, if_neg hne, hs]
  refine ⟨?_, fun r => ?_, fun r split hs => ?_, fun r hm => ?_⟩
  · have hsound : b'.Sound g (b.convert rule).result.rules := by
      refine hmakes.sound.of_mem_iff fun r => ?_
      rw [hrules, List.mem_append]
    rw [hconvert] at hsound ⊢
    exact hsound.record rule op.rules
  · rw [List.mem_append, List.mem_singleton, h.recorded, hget]
    by_cases he : r = rule
    · simp [he]
    · simp [he]
  · rw [hget] at hs
    split at hs
    · next he =>
      subst he
      exact ⟨op, (Option.some.inj hs).symm, hop, fun r hr => (hrules r).2 (.inl hr)⟩
    · obtain ⟨op', hsplit, hop', hin⟩ := h.splits r split hs
      exact ⟨op', hsplit, hop', fun r hr => (hrules r).2 (.inr (hin r hr))⟩
  · rcases (hrules r).1 hm with hm | hm
    · exact ⟨rule, op.rules, by rw [hget, if_pos rfl], hm⟩
    · obtain ⟨origin, split, hs, hr⟩ := h.made r hm
      exact ⟨origin, split, hkeep origin split hs, hr⟩

/-- What holds of the rules done, and is kept by converting one that is not, holds after converting
rules that are all different. -/
theorem foldl_convert_induction {P : List Rule → Binarizer → Prop} {rules : List Rule}
    (h : P done b) (hnodup : (done ++ rules).Nodup)
    (hstep : ∀ done b, ∀ rule ∈ rules, rule ∉ done → P done b →
      P (done ++ [rule]) (b.convert rule)) :
    P (done ++ rules) (rules.foldl Binarizer.convert b) := by
  induction rules generalizing b done with
  | nil => rwa [List.append_nil]
  | cons rule rules ih =>
    have hnew : rule ∉ done := by
      intro hm
      exact (List.nodup_append.1 hnodup).2.2 rule hm rule (by simp) rfl
    have hnext := hstep done b rule (by simp) hnew h
    rw [List.append_cons] at hnodup ⊢
    exact ih hnext hnodup fun done b r hm => hstep done b r (by simp [hm])

/-- Converting rules that are all different keeps this. -/
theorem Converts.foldl_convert (h : b.Converts g done) {rules : List Rule}
    (hnodup : (done ++ rules).Nodup) (hl : ∀ rule ∈ rules, rule.lhs.id < g.symbols.size)
    (hk : ∀ rule ∈ rules, ∀ s ∈ rule.rhs, s.id < g.symbols.size)
    (hr : ∀ rule ∈ rules, g.conversionError? rule = none) :
    (rules.foldl Binarizer.convert b).Converts g (done ++ rules) :=
  foldl_convert_induction h hnodup fun _ _ rule hm hnew hb =>
    hb.convert hnew (hl rule hm) (hk rule hm) (hr rule hm)

end Binarizer

namespace Grammar

/-- What a grammar has to be for its rules to be converted into normal form. -/
structure Convertible (g : Grammar) : Prop where
  /-- The rules are distinct, and terminals are symbols of the grammar. -/
  wellFormed : g.WellFormed
  /-- The grammar has no fault. -/
  valid : g.Valid
  /-- No rule is a nulling rule or a unit rule. -/
  rules : ∀ rule ∈ g.rules, g.conversionError? rule = none

variable {g : Grammar} {s : Symbol} {form word : List Symbol}

/-- A grammar without nulling and unit rules is converted, unless its start symbol has no rule. -/
theorem toNormalForm_eq (hs : g.start = some s)
    (hr : ∀ rule ∈ g.rules, g.conversionError? rule = none) :
    g.toNormalForm =
      if (g.rulesFor s).isEmpty then .error (.noStartRule s) else .ok g.binarize := by
  unfold toNormalForm
  rw [hs, List.findSome?_eq_none_iff.2 hr]

/-- Where the conversion succeeds, it converts all rules, none of which is a nulling rule or a unit
rule. -/
theorem eq_binarize_of_toNormalForm {stage : Stage SplitMap} (h : g.toNormalForm = .ok stage) :
    stage = g.binarize ∧ ∀ rule ∈ g.rules, g.conversionError? rule = none := by
  unfold toNormalForm at h
  split at h
  · exact absurd h (by simp)
  · split at h
    · exact absurd h (by simp)
    · split at h
      · exact absurd h (by simp)
      · next hnone => exact ⟨(Except.ok.inj h).symm, List.findSome?_eq_none_iff.1 hnone⟩

namespace Convertible

/-- All rules of the grammar are converted. -/
theorem converts (hg : g.Convertible) : g.binarizer.Converts g g.rules :=
  (Binarizer.converts_nil g).foldl_convert hg.wellFormed.nodup
    (fun rule hr => knows_iff.1 (hg.valid.lhs rule hr).1)
    (fun rule hr s hs => knows_iff.1 (hg.valid.rhs rule hr s hs)) hg.rules

theorem isTerminal_eq (hg : g.Convertible) : g.binarize.grammar.isTerminal = g.isTerminal :=
  hg.converts.sound.isTerminal_eq

theorem start_eq (hg : g.Convertible) : g.binarize.grammar.start = g.start :=
  hg.converts.sound.start

/-- Splits that begin with the same rule are of the same rule: both have the same leaves. -/
theorem eq_of_head?_eq (hg : g.Convertible) {origin other top : Rule} {split split' : Derivation}
    (hget : g.binarize.record.get? origin = some split) (hhead : split.head? = some top)
    (hget' : g.binarize.record.get? other = some split') (hhead' : split'.head? = some top) :
    other = origin := by
  obtain ⟨op, rfl, hop, hin⟩ := hg.converts.splits origin split hget
  obtain ⟨op', rfl, hop', hin'⟩ := hg.converts.splits other split' hget'
  have htop : op'.top = op.top := by
    rw [hop.head?_rules] at hhead
    rw [hop'.head?_rules] at hhead'
    exact Option.some.inj (hhead'.trans hhead.symm)
  exact hop.eq_of_top_eq hg.converts.sound.unique hop' htop hin hin'

/-- A rule of the result for a variable of the grammar is at the top of a split. -/
theorem exists_top_eq (hg : g.Convertible) {rule : Rule} (hr : rule ∈ g.binarize.grammar.rules)
    (hlt : rule.lhs.id < g.symbols.size) :
    ∃ (origin : Rule) (op : Operand), g.binarize.record.get? origin = some op.rules ∧
      op.Splits g origin ∧ op.top = rule ∧ ∀ r ∈ op.rules, r ∈ g.binarize.grammar.rules := by
  obtain ⟨origin, split, hget, hrule⟩ := hg.converts.made rule hr
  obtain ⟨op, rfl, hop, hin⟩ := hg.converts.splits origin split hget
  refine ⟨origin, op, hget, hop, ?_, hin⟩
  -- The other rules of a split are for fresh variables, so this one is its first.
  rcases hop.eq_top_or_fresh hrule with he | hf
  · exact he.symm
  · omega

/-- The record of the conversion accounts for the rules of the result. -/
theorem explains (hg : g.Convertible) : g.binarize.record.Explains g g.binarize.grammar where
  introduced rule hr := by
    have hlt := hg.converts.sound.lhs_lt rule hr
    exact (hg.converts.sound.introduced rule.lhs).trans ⟨fun h => h.1, fun h => ⟨h, hlt⟩⟩
  unique := hg.converts.sound.unique
  begins rule hr hlt := by
    obtain ⟨origin, op, hget, hop, rfl, hin⟩ := hg.exists_top_eq hr hlt
    refine ⟨origin, (hg.converts.recorded origin).2 ⟨_, hget⟩, op, ?_, hop, rfl, hin⟩
    exact SplitMap.groupOf?_eq_some hget hop.head?_rules fun other split' hget' hhead' =>
      hg.eq_of_head?_eq hget hop.head?_rules hget' hhead'

/-- What a rule is recorded to be split into are rules of the result, the first of them for a
variable of the grammar. -/
theorem mem_and_knows_of_get? (hg : g.Convertible) {origin : Rule} {split : Derivation}
    (hget : g.binarize.record.get? origin = some split) :
    (∀ r ∈ split, r ∈ g.binarize.grammar.rules) ∧
      ∀ r, split.head? = some r → g.knows r.lhs = true := by
  obtain ⟨op, rfl, hop, hin⟩ := hg.converts.splits origin split hget
  refine ⟨hin, fun r hhead => ?_⟩
  rw [hop.head?_rules] at hhead
  have hlhs : op.top.lhs = origin.lhs := hop.eq_top.1
  rw [← Option.some.inj hhead, hlhs]
  exact (hg.valid.lhs origin ((hg.converts.recorded origin).2 ⟨_, hget⟩)).1

/-- A record in which every rule is split into itself leaves no new rules. -/
theorem mem_of_isIdentity (hg : g.Convertible) (hid : g.binarize.record.isIdentity = true)
    {rule : Rule} (hr : rule ∈ g.binarize.grammar.rules) : rule ∈ g.rules := by
  obtain ⟨origin, split, hget, hrule⟩ := hg.converts.made rule hr
  -- The rule comes from the split of some rule, which is that rule alone.
  have hentry : (origin, split) ∈ g.binarize.record.splits.toList :=
    Std.TreeMap.mem_toList_iff_getElem?_eq_some.2 hget
  have hsplit : split = [origin] := by simpa using List.all_eq_true.1 hid _ hentry
  rw [hsplit] at hrule
  rw [List.mem_singleton.1 hrule]
  exact (hg.converts.recorded origin).2 ⟨split, hget⟩

/-- The result is in normal form. -/
theorem isNormal (hg : g.Convertible) : g.binarize.grammar.isNormal = true := by
  refine List.all_eq_true.2 fun rule hr => ?_
  obtain ⟨origin, split, hget, hrule⟩ := hg.converts.made rule hr
  obtain ⟨op, rfl, hop, -⟩ := hg.converts.splits origin split hget
  rw [isNormalRule_congr hg.isTerminal_eq]
  exact hop.isNormalRule_of_mem_rules hg.wellFormed.terminals hrule

/-- Left-hand sides of the result are variables. -/
theorem isTerminal_lhs (hg : g.Convertible) {rule : Rule} (hr : rule ∈ g.binarize.grammar.rules) :
    g.isTerminal rule.lhs = false := by
  obtain ⟨origin, split, hget, hrule⟩ := hg.converts.made rule hr
  obtain ⟨op, rfl, hop, -⟩ := hg.converts.splits origin split hget
  rcases hop.eq_top_or_fresh hrule with rfl | hf
  · have hlhs : op.top.lhs = origin.lhs := hop.eq_top.1
    rw [hlhs]
    exact (hg.valid.lhs origin ((hg.converts.recorded origin).2 ⟨_, hget⟩)).2
  · rw [Bool.eq_false_iff]
    intro ht
    have := hg.wellFormed.terminals _ ht
    omega

/-- The conversion of a valid grammar is valid: a fresh variable stands on a right-hand side only
together with its own rule. -/
theorem binarize_valid (hg : g.Convertible) : g.binarize.grammar.Valid := by
  have hsound := hg.converts.sound
  have hknows : ∀ {s : Symbol}, s.id < g.binarize.grammar.symbols.size →
      g.binarize.grammar.knows s = true := knows_iff.2
  refine ⟨?_, fun rule hr => ?_, fun rule hr s hs => hknows ?_⟩
  · obtain ⟨start, hstart, hk, hv⟩ := hg.valid.start
    refine ⟨start, hg.start_eq.trans hstart, hknows ?_, ?_⟩
    · exact Nat.lt_of_lt_of_le (knows_iff.1 hk) hsound.size_le
    · rw [hg.isTerminal_eq, hv]
  · refine ⟨hknows (hsound.lhs_lt rule hr), ?_⟩
    rw [hg.isTerminal_eq]
    exact hg.isTerminal_lhs hr
  · obtain ⟨origin, split, hget, hrule⟩ := hg.converts.made rule hr
    obtain ⟨op, rfl, hop, hin⟩ := hg.converts.splits origin split hget
    rcases hop.closed hg.wellFormed.terminals rule hrule s hs with hk | ⟨r', hr', rfl⟩
    · exact Nat.lt_of_lt_of_le hk hsound.size_le
    · exact hsound.lhs_lt r' (hin r' hr')

/-- What is spelled stays spelled after the conversion. -/
theorem spells_binarize (hg : g.Convertible) (h : g.Spells form word) :
    g.binarize.grammar.Spells form word := by
  induction h with
  | nil => exact .nil
  | ofTerminal ha _ ih => exact .ofTerminal (hg.isTerminal_eq ▸ ha) ih
  | @ofRule rule rest part word hm _ _ _ ihHead ihTail =>
    obtain ⟨split, hget⟩ := (hg.converts.recorded rule).1 hm
    obtain ⟨op, rfl, hop, hin⟩ := hg.converts.splits rule split hget
    -- The tree of the rule has its right-hand side for leaves, and derives what they do.
    rw [← hop.frontier_eq] at ihHead
    have hnode := op.spells_symbol
      (fun r hr => ⟨hin r hr, hg.isTerminal_eq ▸ hg.isTerminal_lhs (hin r hr)⟩) ihHead
    rw [hop.eq_top.1] at hnode
    exact hnode.append ihTail

/-- A variable of the grammar derives the same words after the conversion as before. -/
theorem spells_binarize_iff (hg : g.Convertible) (hs : g.knows s = true)
    (hv : g.isTerminal s = false) : g.binarize.grammar.Spells [s] word ↔ g.Spells [s] word := by
  refine ⟨fun h => ?_, hg.spells_binarize⟩
  obtain ⟨d, hd⟩ := h.exists_derives
  obtain ⟨d', -, hd'⟩ := hg.explains.derives_groups hg.isTerminal_eq hg.wellFormed.terminals
    (knows_iff.1 hs) hv hd
  exact hd'.spells

end Convertible

end Grammar

end ContextFree
