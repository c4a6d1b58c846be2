import ContextFree.Grammar.Form
import ContextFree.Proofs.Derivation.Forest
import ContextFree.Provenance.Restore

/-!
# Undoing the elimination of unit and nulling rules is right

What a record has to say about the rules of a stage is stated apart from how the stage finds it: a
unit record explains a rule by a chain of unit rules and the rule at its end (`UnitMap.Explains`), a
nulling record by the rule it comes from and the symbols deleted there, each with a derivation of
the empty word (`NullingMap.Explains`). With such a record, expanding units and restoring what was
deleted turn every derivation after the stage into one of the same word before it
(`UnitMap.Explains.derives_expandUnits`, `NullingMap.Explains.derives_restore`). Of rules that make
up no derivation, expanding units makes none either (`UnitMap.Chains.complete_expandUnits_iff`).
-/

namespace ContextFree

/-! ## Chains of unit rules -/

/-- The chain of unit rules leads from the first symbol to the second. -/
inductive Grammar.UnitChain (g : Grammar) (s : Symbol) : Derivation → Symbol → Prop where
  /-- No rules lead from a symbol to itself. -/
  | nil : UnitChain g s [] s
  /-- A chain goes on by a unit rule for the symbol that it leads to. -/
  | snoc {chain : Derivation} {rule : Rule} {t : Symbol} (front : UnitChain g s chain rule.lhs)
      (mem : rule ∈ g.rules) (target : g.unitTarget? rule = some t) :
      UnitChain g s (chain ++ [rule]) t

/-- The record accounts for the rules of the grammar after the elimination of unit rules: a rule
without an entry was there before, and the entry of any other is a chain of unit rules that ends in
a rule with the same right-hand side. -/
def UnitMap.Explains (units : UnitMap) (before after : Grammar) : Prop :=
  ∀ rule ∈ after.rules, rule ∈ before.rules ∧ units[rule]? = none ∨
    ∃ chain, ∃ last ∈ before.rules, units[rule]? = some (chain ++ [last]) ∧
      before.UnitChain rule.lhs chain last.lhs ∧ last.rhs = rule.rhs

namespace Grammar

variable {g before after : Grammar} {s t : Symbol} {d chain : Derivation}
  {form word part : List Symbol}

/-- A unit rule has the variable it leads to as its right-hand side. -/
theorem unitTarget?_eq_some_iff {rule : Rule} :
    g.unitTarget? rule = some t ↔ rule.rhs = [t] ∧ g.isTerminal t = false := by
  unfold unitTarget?
  split
  · next a ha =>
    rw [ha, Option.ite_none_right_eq_some, isVariable, Bool.not_eq_true', Option.some.injEq,
      List.singleton_inj]
    constructor
    · rintro ⟨hv, rfl⟩
      exact ⟨rfl, hv⟩
    · rintro ⟨rfl, hv⟩
      exact ⟨hv, rfl⟩
  · next hne =>
    refine ⟨fun h => absurd h (by simp), fun ⟨h, _⟩ => absurd h (hne t)⟩

/-- A derivation from the symbol at the end of a chain goes on behind it. -/
theorem UnitChain.derives (hl : ∀ rule ∈ g.rules, g.isTerminal rule.lhs = false)
    (h : g.UnitChain s chain t) (hd : g.Derives d [t] word) : g.Derives (chain ++ d) [s] word := by
  induction h generalizing d with
  | nil => exact hd
  | @snoc chain rule t _ hm ht ih =>
    obtain ⟨hrhs, -⟩ := unitTarget?_eq_some_iff.1 ht
    rw [List.append_assoc]
    refine ih ?_
    rw [← hrhs] at hd
    exact (derives_variable_iff (hl rule hm)).2 ⟨rule, hm, rfl, d, rfl, hd⟩

end Grammar

/-- Expanding the rules made by following unit rules gives a derivation before their elimination. -/
theorem UnitMap.Explains.derives_expandUnits {units : UnitMap} {before after : Grammar}
    {d : Derivation} {form word : List Symbol} (hu : units.Explains before after)
    (ht : after.isTerminal = before.isTerminal)
    (hl : ∀ rule ∈ before.rules, before.isTerminal rule.lhs = false)
    (h : after.Derives d form word) : before.Derives (expandUnits units d) form word := by
  induction h with
  | nil => exact .nil
  | ofTerminal ha _ ih => exact .ofTerminal (ht ▸ ha) ih
  | @ofRule rule d e rest part word hm hv _ _ ihHead ihTail =>
    have hsplit : expandUnits units (rule :: (d ++ e)) =
        (units[rule]?.getD [rule] ++ expandUnits units d) ++ expandUnits units e := by
      simp [expandUnits]
    -- The rule, or the chain it stands for, takes its left-hand side to its right-hand side.
    have hnode : before.Derives (units[rule]?.getD [rule] ++ expandUnits units d)
        [rule.lhs] part := by
      rcases hu rule hm with ⟨hm', hnone⟩ | ⟨chain, last, hlast, hsome, hchain, hrhs⟩
      · rw [hnone, Option.getD_none, List.singleton_append]
        exact (Grammar.derives_variable_iff (hl rule hm')).2 ⟨rule, hm', rfl, _, rfl, ihHead⟩
      · rw [hsome, Option.getD_some, List.append_assoc, List.singleton_append]
        rw [← hrhs] at ihHead
        refine hchain.derives hl ?_
        exact (Grammar.derives_variable_iff (hl last hlast)).2 ⟨last, hlast, rfl, _, rfl, ihHead⟩
    rw [hsplit]
    exact hnode.append ihTail

/-- The record has nothing but chains: the entry of a rule, which is for a variable, is a chain of
unit rules and a rule with the same right-hand side at its end. Rules that are not there after the
elimination have entries of this kind, too. -/
def UnitMap.Chains (units : UnitMap) (g : Grammar) : Prop :=
  ∀ (rule : Rule) (steps : Derivation), units[rule]? = some steps → g.isTerminal rule.lhs = false ∧
    ∃ chain last, steps = chain ++ [last] ∧ g.UnitChain rule.lhs chain last.lhs ∧
      last.rhs = rule.rhs

/-- Replaying a single rule is applying it. -/
theorem Derivation.replay_singleton {isTerminal : Symbol → Bool} (rule : Rule)
    (form : List Symbol) : replay isTerminal [rule] form = rule.applyLeftmost isTerminal form := by
  rw [replay]
  exact Option.bind_fun_some _

/-- Applying a unit rule and then a rule for its target is applying the second rule to the
left-hand side of the first. -/
theorem Rule.applyLeftmost_unit {isTerminal : Symbol → Bool} {s t : Symbol} {rhs : List Symbol}
    (ht : isTerminal t = false) (form : List Symbol) :
    ((⟨s, [t]⟩ : Rule).applyLeftmost isTerminal form).bind
        ((⟨t, rhs⟩ : Rule).applyLeftmost isTerminal) =
      (⟨s, rhs⟩ : Rule).applyLeftmost isTerminal form := by
  induction form with
  | nil => rfl
  | cons a form ih =>
    rw [applyLeftmost, applyLeftmost]
    split
    · next ha =>
      rw [← ih, Option.bind_map, Option.map_bind]
      refine congrArg _ (funext fun form' => ?_)
      simp [applyLeftmost, ha]
    · split
      · simp [applyLeftmost, ht]
      · rfl

namespace Grammar.UnitChain

variable {g : Grammar} {s t : Symbol} {chain : Derivation}

/-- Replaying a chain and a rule at its end is applying that rule to the symbol at the front of the
chain. -/
theorem replay_append_singleton (h : g.UnitChain s chain t) (rhs form : List Symbol) :
    Derivation.replay g.isTerminal (chain ++ [⟨t, rhs⟩]) form =
      (⟨s, rhs⟩ : Rule).applyLeftmost g.isTerminal form := by
  induction h generalizing rhs with
  | nil => exact Derivation.replay_singleton _ form
  | @snoc chain rule t _ _ htarget ih =>
    obtain ⟨hrhs, ht⟩ := unitTarget?_eq_some_iff.1 htarget
    have hrule : rule = ⟨rule.lhs, [t]⟩ := by rw [← hrhs]
    have hlast : Derivation.replay g.isTerminal [⟨t, rhs⟩] =
        (⟨t, rhs⟩ : Rule).applyLeftmost g.isTerminal := funext (Derivation.replay_singleton _)
    rw [Derivation.replay_append, hlast, hrule, ih]
    exact Rule.applyLeftmost_unit ht form

/-- A chain and a rule at its end begin with a rule for the symbol at the front of the chain. -/
theorem exists_append_eq_cons (h : g.UnitChain s chain t) {last : Rule} (hl : last.lhs = t) :
    ∃ first more, chain ++ [last] = first :: more ∧ first.lhs = s := by
  induction h generalizing last with
  | nil => exact ⟨last, [], rfl, hl⟩
  | @snoc chain rule t _ _ _ ih =>
    obtain ⟨first, more, heq, hfirst⟩ := ih rfl
    exact ⟨first, more ++ [last], by rw [heq, List.cons_append], hfirst⟩

end Grammar.UnitChain

namespace UnitMap.Chains

variable {units : UnitMap} {g : Grammar}

/-- The rules that a rule stands for do to symbols what the rule does. -/
theorem replay_getD (hu : units.Chains g) (rule : Rule) (form : List Symbol) :
    Derivation.replay g.isTerminal (units[rule]?.getD [rule]) form =
      rule.applyLeftmost g.isTerminal form := by
  cases hget : units[rule]? with
  | none => exact Derivation.replay_singleton rule form
  | some steps =>
    obtain ⟨-, chain, ⟨t, rhs⟩, rfl, hchain, rfl⟩ := hu rule steps hget
    exact hchain.replay_append_singleton rule.rhs form

/-- Expanding rules, whatever they are, changes nothing about what they do to symbols. -/
theorem replay_expandUnits (hu : units.Chains g) (d : Derivation) (form : List Symbol) :
    Derivation.replay g.isTerminal (expandUnits units d) form =
      Derivation.replay g.isTerminal d form := by
  induction d generalizing form with
  | nil => rfl
  | cons rule d ih =>
    have hsplit : expandUnits units (rule :: d) =
        units[rule]?.getD [rule] ++ expandUnits units d := rfl
    rw [hsplit, Derivation.replay_append, hu.replay_getD, Derivation.replay]
    exact congrArg _ (funext ih)

/-- Expanding rules makes no list of rules complete that was not, and the other way round. -/
theorem complete_expandUnits_iff (hu : units.Chains g) {d : Derivation} :
    Derivation.Complete g.isTerminal (expandUnits units d) ↔
      Derivation.Complete g.isTerminal d := by
  cases d with
  | nil => exact Iff.rfl
  | cons rule d =>
    have hreplay : ∀ form, Derivation.Completes g.isTerminal (expandUnits units (rule :: d)) form ↔
        Derivation.Completes g.isTerminal (rule :: d) form := fun form => by
      rw [Derivation.Completes, Derivation.Completes, hu.replay_expandUnits]
    have hsplit : expandUnits units (rule :: d) =
        units[rule]?.getD [rule] ++ expandUnits units d := rfl
    cases hget : units[rule]? with
    | none =>
      rw [hsplit, hget, Option.getD_none, List.singleton_append, Derivation.Complete,
        Derivation.Complete, Derivation.Completes, Derivation.Completes, hu.replay_expandUnits]
    | some steps =>
      obtain ⟨hv, chain, last, rfl, hchain, -⟩ := hu rule steps hget
      obtain ⟨first, more, heq, hfirst⟩ := hchain.exists_append_eq_cons rfl
      -- The first rule of the chain is for the same variable.
      rw [Derivation.complete_cons_iff hv, ← hreplay, hsplit, hget, Option.getD_some, heq,
        List.cons_append, Derivation.complete_cons_iff (hfirst ▸ hv), hfirst]

end UnitMap.Chains

/-! ## Deleted symbols -/

/-- Deleting symbols of a right-hand side, whose first place is `position`, leaves the second list
of symbols. The deletions are listed by their places, and each comes with a derivation of the empty
word from the symbol deleted. -/
inductive Grammar.Deletes (g : Grammar) :
    (position : Nat) → List Symbol → List Deletion → List Symbol → Prop where
  /-- There is nothing to delete from no symbols. -/
  | nil {position : Nat} : Deletes g position [] [] []
  /-- A symbol is kept. -/
  | keep {position : Nat} {s : Symbol} {rhs left : List Symbol} {deletions : List Deletion}
      (tail : Deletes g (position + 1) rhs deletions left) :
      Deletes g position (s :: rhs) deletions (s :: left)
  /-- A symbol that derives the empty word is deleted. -/
  | delete {position : Nat} {s : Symbol} {rhs left : List Symbol} {deletions : List Deletion}
      {d : Derivation} (derives : g.Derives d [s] [])
      (tail : Deletes g (position + 1) rhs deletions left) :
      Deletes g position (s :: rhs) (⟨position, d⟩ :: deletions) left

/-- The record accounts for the rules of the grammar after the elimination of nulling rules: a rule
without an entry was there before, and any other comes from a rule that was by the deletions of its
entry. -/
def NullingMap.Explains (nulling : NullingMap) (before after : Grammar) : Prop :=
  ∀ rule ∈ after.rules, rule ∈ before.rules ∧ nulling[rule]? = none ∨
    ∃ expansion : Expansion, nulling[rule]? = some expansion ∧ expansion.origin ∈ before.rules ∧
      expansion.origin.lhs = rule.lhs ∧
      before.Deletes 0 expansion.origin.rhs expansion.deletions rule.rhs

namespace Grammar

variable {g : Grammar} {position : Nat} {rhs left form word : List Symbol}
  {deletions : List Deletion} {parts : List Derivation}

/-- Deletions are at the places from the first one on. -/
theorem Deletes.position_le (h : g.Deletes position rhs deletions left) :
    ∀ deletion ∈ deletions, position ≤ deletion.position := by
  induction h with
  | nil => simp
  | keep _ ih =>
    intro deletion hm
    have := ih deletion hm
    omega
  | delete _ _ ih =>
    refine List.forall_mem_cons.2 ⟨Nat.le_refl _, fun deletion hm => ?_⟩
    have := ih deletion hm
    omega

/-- Every symbol is either deleted or left. -/
theorem Deletes.length_eq (h : g.Deletes position rhs deletions left) :
    rhs.length = deletions.length + left.length := by
  induction h with
  | nil => rfl
  | keep _ ih => rw [List.length_cons, List.length_cons, ih]; omega
  | delete _ _ ih => rw [List.length_cons, List.length_cons, ih]; omega

/-- What is left are symbols of the right-hand side, in order. -/
theorem Deletes.sublist (h : g.Deletes position rhs deletions left) : left.Sublist rhs := by
  induction h with
  | nil => exact .refl _
  | keep _ ih => exact ih.cons_cons _
  | delete _ _ ih => exact ih.cons _

/-- Without deletions everything is left. -/
theorem Deletes.eq_of_nil (h : g.Deletes position rhs [] left) : left = rhs :=
  h.sublist.eq_of_length (by simpa using h.length_eq.symm)

/-- A symbol that derives the empty word is a variable. -/
theorem Derives.isVariable_of_nil {d : Derivation} {s : Symbol} (h : g.Derives d [s] []) :
    g.isTerminal s = false := by
  cases hs : g.isTerminal s with
  | false => rfl
  | true =>
    have hone : ∀ a ∈ [s], g.isTerminal a = true := by simpa using hs
    have hword := (h.of_terminals hone).2
    exact absurd hword (by simp)

/-- A derivation in parts, one for each variable among the symbols. -/
inductive DerivesParts (g : Grammar) : List Derivation → List Symbol → List Symbol → Prop where
  /-- No symbols have no parts. -/
  | nil : DerivesParts g [] [] []
  /-- A terminal has no part. -/
  | ofTerminal {parts : List Derivation} {a : Symbol} {rest word : List Symbol}
      (isTerminal : g.isTerminal a = true) (tail : DerivesParts g parts rest word) :
      DerivesParts g parts (a :: rest) (a :: word)
  /-- A variable has a part of its own. -/
  | ofVariable {parts : List Derivation} {d : Derivation} {s : Symbol}
      {rest part word : List Symbol} (isVariable : g.isTerminal s = false)
      (head : g.Derives d [s] part) (tail : DerivesParts g parts rest word) :
      DerivesParts g (d :: parts) (s :: rest) (part ++ word)

/-- The parts one after the other make up the derivation. -/
theorem DerivesParts.flatten (h : g.DerivesParts parts form word) :
    g.Derives parts.flatten form word := by
  induction h with
  | nil => exact .nil
  | ofTerminal ha _ ih => exact .ofTerminal ha ih
  | ofVariable _ head _ ih => exact head.append ih

/-- Filling the slots of a right-hand side with parts for the symbols left gives parts for all its
symbols: those deleted get their derivations of the empty word. -/
theorem Deletes.fill_slots (h : g.Deletes position rhs deletions left)
    (hparts : g.DerivesParts parts left word) :
    ∃ all : List Derivation,
      Expansion.fill .ok (Expansion.slotsFrom g.isTerminal position rhs deletions)
        (parts.map .ok : List (Except Nat Derivation)) = some (all.map .ok) ∧
        g.DerivesParts all rhs word := by
  induction h generalizing parts word with
  | nil =>
    cases hparts
    exact ⟨[], rfl, .nil⟩
  | @keep position s rhs left deletions htail ih =>
    -- All deletions are further on, so none of them is taken for this symbol.
    have hlater : deletions.head?.filter (·.position = position) = none := by
      cases deletions with
      | nil => rfl
      | cons deletion deletions =>
        have hle := htail.position_le deletion (by simp)
        have hne : ¬deletion.position = position := by omega
        rw [List.head?_cons, Option.filter_some_neg (by simpa using hne)]
    rw [Expansion.slotsFrom, hlater]
    dsimp only
    cases hparts with
    | ofTerminal ha hrest =>
      obtain ⟨all, hfill, hall⟩ := ih hrest
      rw [if_pos ha, List.nil_append]
      exact ⟨all, hfill, .ofTerminal ha hall⟩
    | @ofVariable parts d _ _ part word hv head hrest =>
      obtain ⟨all, hfill, hall⟩ := ih hrest
      rw [if_neg (by simp [hv]), List.singleton_append, List.map_cons, Expansion.fill, hfill]
      exact ⟨d :: all, rfl, .ofVariable hv head hall⟩
  | @delete position s rhs left deletions d hd _ ih =>
    obtain ⟨all, hfill, hall⟩ := ih hparts
    -- The first deletion is the one at this place, and its derivation fills the slot.
    have hhere : (some (⟨position, d⟩ : Deletion)).filter (·.position = position) =
        some ⟨position, d⟩ := Option.filter_some_pos (by simp)
    rw [Expansion.slotsFrom, List.head?_cons, hhere]
    dsimp only
    rw [List.tail_cons, Expansion.fill, hfill]
    exact ⟨d :: all, rfl, .ofVariable hd.isVariable_of_nil hd hall⟩

end Grammar

/-- Parts that all succeeded succeed together. -/
theorem mapM_map_ok {ε α : Type} (parts : List α) :
    (parts.map .ok : List (Except ε α)).mapM id = .ok parts := by
  induction parts with
  | nil => rfl
  | cons part parts ih =>
    rw [List.map_cons, List.mapM_cons, ih]
    rfl

/-- Restoring what was deleted gives, for each variable, a derivation before the elimination of
nulling rules. -/
theorem NullingMap.Explains.derivesParts_restore {nulling : NullingMap} {before after : Grammar}
    {d : Derivation} {form word : List Symbol} (hn : nulling.Explains before after)
    (ht : after.isTerminal = before.isTerminal) (h : after.Derives d form word) (index : Nat) :
    ∃ parts : List Derivation,
      (Forest.ofRules before.isTerminal index d).restore before.isTerminal nulling =
        parts.map .ok ∧ before.DerivesParts parts form word := by
  induction h generalizing index with
  | nil => exact ⟨[], rfl, .nil⟩
  | ofTerminal ha _ ih =>
    obtain ⟨parts, hrestore, hparts⟩ := ih index
    exact ⟨parts, hrestore, .ofTerminal (ht ▸ ha) hparts⟩
  | @ofRule rule d e rest part word hm hv head _ ihHead ihTail =>
    obtain ⟨below, hbelow, hpart⟩ := ihHead (index + 1)
    obtain ⟨beside, hbeside, hrest⟩ := ihTail (index + 1 + d.length)
    rw [ht] at hv
    have hforest := head.ofRules_cons index e
    rw [ht] at hforest
    rw [hforest, Forest.restore, hbelow, hbeside, Forest.restoreNode]
    rcases hn rule hm with ⟨hm', hnone⟩ | ⟨expansion, hsome, horigin, hlhs, hdeletes⟩
    · -- The rule was there before, and nothing is missing below it.
      have hnode : before.Derives (rule :: below.flatten) [rule.lhs] part :=
        (Grammar.derives_variable_iff hv).2 ⟨rule, hm', rfl, _, rfl, hpart.flatten⟩
      rw [hnone]
      dsimp only
      rw [mapM_map_ok]
      exact ⟨(rule :: below.flatten) :: beside, rfl, .ofVariable hv hnode hrest⟩
    · -- The rule takes the place of its origin, with derivations of the empty word filled in.
      obtain ⟨all, hfill, hall⟩ := hdeletes.fill_slots hpart
      have hnode : before.Derives (expansion.origin :: all.flatten) [rule.lhs] part :=
        (Grammar.derives_variable_iff hv).2
          ⟨expansion.origin, horigin, hlhs, _, rfl, hall.flatten⟩
      rw [hsome]
      dsimp only
      rw [Expansion.slots, hfill]
      dsimp only
      rw [mapM_map_ok]
      exact ⟨(expansion.origin :: all.flatten) :: beside, rfl, .ofVariable hv hnode hrest⟩

/-- Restoring what was deleted from a derivation gives one of the same word before the elimination
of nulling rules. -/
theorem NullingMap.Explains.derives_restore {nulling : NullingMap} {before after : Grammar}
    {d : Derivation} {form word : List Symbol} (hn : nulling.Explains before after)
    (ht : after.isTerminal = before.isTerminal) (h : after.Derives d form word) :
    ∃ parts : List Derivation,
      ((Forest.ofRules before.isTerminal 0 d).restore before.isTerminal nulling).mapM id =
        .ok parts ∧ before.Derives parts.flatten form word := by
  obtain ⟨parts, hrestore, hparts⟩ := hn.derivesParts_restore ht h 0
  rw [hrestore]
  exact ⟨parts, mapM_map_ok parts, hparts.flatten⟩

end ContextFree
