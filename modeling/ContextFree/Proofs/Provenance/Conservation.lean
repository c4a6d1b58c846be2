import ContextFree.Proofs.Provenance.Walk
import Mathlib.Data.List.Perm.Basic

/-!
# Grouping neither loses nor repeats a rule

Undoing the split into normal form gathers the nodes of a tree into groups. Each group has a share
of the nodes (`Forest.shares`): a kept node only itself, and a node that stands for a rule before
the split also the introduced ones below it, which together carry the whole split of that rule.
Whatever is recorded about splits, the shares together are the nodes of the tree, each of them once
(`Forest.perm_shares`). `Tracer.undoSplit_conserves` states this of the rules that are traced back.
-/

namespace ContextFree

/-- The rules after the split that a group stands for: a kept rule for itself, and a rule before the
split for what it was split into. -/
def Group.split? (m : SplitMap) : Group → Option Derivation
  | kept rule => some [rule]
  | grouped origin => m.get? origin

namespace Forest

variable {m : SplitMap} {forest : Forest}

/-- The topmost nodes of introduced variables, down to the first node of any other variable on each
branch, in pre-order. -/
def regionEntries (m : SplitMap) : Forest → List (Rule × Nat)
  | nil => []
  | cons index rule children siblings =>
    (if m.isIntroduced rule.lhs then (rule, index) :: children.regionEntries m else []) ++
      siblings.regionEntries m

/-- The groups of a forest, in pre-order, each with the nodes that it takes. While `absorbed` holds,
the trees stand directly below a complete group, which takes the nodes of introduced variables. -/
def shares (m : SplitMap) : (absorbed : Bool) → Forest → List (Group × List (Rule × Nat))
  | _, nil => []
  | absorbed, cons index rule children siblings =>
    (if absorbed && m.isIntroduced rule.lhs then children.shares m true
    else match origin? m rule children with
      | some origin =>
        (.grouped origin, (rule, index) :: children.regionEntries m) :: children.shares m true
      | none => (.kept rule, [(rule, index)]) :: children.shares m false) ++
        siblings.shares m absorbed

theorem map_regionEntries (m : SplitMap) (forest : Forest) :
    (forest.regionEntries m).map (·.1) = forest.region m := by
  induction forest with
  | nil => rfl
  | cons index rule children siblings ihChildren ihSiblings =>
    rw [regionEntries, region, List.map_append, ihSiblings]
    split
    · rw [List.map_cons, ihChildren]
    · rfl

/-- The groups with shares are the groups. -/
theorem map_shares (m : SplitMap) (absorbed : Bool) (forest : Forest) :
    (forest.shares m absorbed).map (·.1) = forest.groups m absorbed := by
  induction forest generalizing absorbed with
  | nil => rfl
  | cons index rule children siblings ihChildren ihSiblings =>
    rw [shares, groups, List.map_append, ihSiblings]
    split
    · rw [ihChildren]
    · cases origin? m rule children with
      | some origin => simp [ihChildren]
      | none => simp [ihChildren]

theorem sublist_regionEntries (m : SplitMap) (forest : Forest) :
    (forest.regionEntries m).Sublist forest.entries := by
  induction forest with
  | nil => exact .slnil
  | cons index rule children siblings ihChildren ihSiblings =>
    rw [regionEntries, entries, preorder, ← List.cons_append]
    refine List.Sublist.append ?_ ihSiblings
    split
    · exact ihChildren.cons_cons _
    · exact List.nil_sublist _

/-- The nodes of a share carry, in the order of the forest, the rules that its group stands for. -/
theorem split?_of_mem_shares (absorbed : Bool) (forest : Forest) :
    ∀ share ∈ forest.shares m absorbed,
      share.2.Sublist forest.entries ∧ share.1.split? m = some (share.2.map (·.1)) := by
  induction forest generalizing absorbed with
  | nil => simp [shares]
  | cons index rule children siblings ihChildren ihSiblings =>
    have hentries : (cons index rule children siblings).entries =
        ((rule, index) :: children.entries) ++ siblings.entries := rfl
    intro share hshare
    rw [shares, List.mem_append] at hshare
    rw [hentries]
    rcases hshare with hhere | hbeside
    · -- What a tree has is in front of what the other trees have.
      suffices h : share.2.Sublist ((rule, index) :: children.entries) ∧
          share.1.split? m = some (share.2.map (·.1)) from
        ⟨h.1.trans (List.sublist_append_left _ _), h.2⟩
      have hbelow : ∀ absorbed, share ∈ children.shares m absorbed →
          share.2.Sublist ((rule, index) :: children.entries) ∧
            share.1.split? m = some (share.2.map (·.1)) := fun absorbed hshare =>
        (ihChildren absorbed share hshare).imp_left (·.cons _)
      split at hhere
      · exact hbelow true hhere
      · cases horigin : origin? m rule children with
        | some origin =>
          simp only [horigin] at hhere
          rcases List.mem_cons.1 hhere with rfl | hhere
          · refine ⟨(children.sublist_regionEntries m).cons_cons _, ?_⟩
            rw [List.map_cons, map_regionEntries]
            exact get?_of_origin? horigin
          · exact hbelow true hhere
        | none =>
          simp only [horigin] at hhere
          rcases List.mem_cons.1 hhere with rfl | hhere
          · exact ⟨(List.nil_sublist _).cons_cons _, rfl⟩
          · exact hbelow false hhere
    · obtain ⟨hsublist, hsplit⟩ := ihSiblings absorbed share hbeside
      exact ⟨hsublist.trans (List.sublist_append_right _ _), hsplit⟩

/-- Each node is in exactly one share, or belongs to the group above, if there is one. -/
theorem perm_shares (m : SplitMap) (absorbed : Bool) (forest : Forest) :
    forest.entries.Perm ((if absorbed then forest.regionEntries m else []) ++
      (forest.shares m absorbed).flatMap (·.2)) := by
  induction forest generalizing absorbed with
  | nil => cases absorbed <;> exact .nil
  | cons index rule children siblings ihChildren ihSiblings =>
    have hentries : (cons index rule children siblings).entries =
        (rule, index) :: (children.entries ++ siblings.entries) := rfl
    rw [hentries, shares, List.flatMap_append, List.perm_iff_count]
    intro entry
    have hbelow := fun absorbed => List.perm_iff_count.1 (ihChildren absorbed) entry
    have hbeside := List.perm_iff_count.1 (ihSiblings absorbed) entry
    by_cases htaken : (absorbed && m.isIntroduced rule.lhs) = true
    · -- The group above takes the node, and with it the introduced ones below.
      obtain ⟨rfl, hintro⟩ := Bool.and_eq_true_iff.1 htaken
      have hbelow := hbelow true
      rw [if_pos htaken, if_pos rfl, regionEntries, if_pos hintro]
      simp only [if_pos, List.count_append, List.count_cons] at hbelow hbeside ⊢
      omega
    · have hregion :
          (if absorbed then (cons index rule children siblings).regionEntries m else []) =
            if absorbed then siblings.regionEntries m else [] := by
        cases absorbed with
        | false => rfl
        | true =>
          have hintro : ¬m.isIntroduced rule.lhs = true := htaken
          rw [regionEntries, if_neg hintro, List.nil_append]
      rw [if_neg htaken, hregion]
      cases origin? m rule children with
      | some origin =>
        -- The node begins a group, which takes the introduced ones below.
        have hbelow := hbelow true
        simp only [if_pos, List.flatMap_cons, List.count_append, List.count_cons]
          at hbelow hbeside ⊢
        omega
      | none =>
        have hbelow : children.entries.count entry =
            ((children.shares m false).flatMap (·.2)).count entry := hbelow false
        simp only [List.flatMap_cons, List.count_append, List.count_cons, List.count_nil]
          at hbeside ⊢
        omega

end Forest

namespace Tracer

variable {t : Tracer} {split : SplitMap} {trace result : Derivation}

/-- Rules that are let pass are each reported, in order. -/
theorem log_unresolvedAll {rules : List Rule} (h : (t.unresolvedAll rules).outcome = .ok ()) :
    (t.unresolvedAll rules).log =
      rules.map fun rule => .unresolvedKept (t.grammar.displayRule rule) := by
  induction rules with
  | nil => rfl
  | cons rule rules ih =>
    unfold unresolvedAll at h ⊢
    obtain ⟨_, hrule, hrules⟩ := Run.bind_eq_ok_iff.1 h
    rw [Run.log_bind, hrule]
    unfold unresolved at hrule ⊢
    cases hp : t.policy with
    | strict =>
      rw [hp] at hrule
      exact absurd hrule (by simp)
    | bestEffort => simp [Run.emit, ih hrules]

/-- Where undoing the split succeeds, it gives the rules of the groups of the tree, having let pass
and reported those that are kept. -/
theorem groups_of_undoSplit (h : (t.undoSplit split trace).outcome = .ok result) :
    ∃ groups, groups = (Forest.ofRules t.grammar.isTerminal 0 trace).groups split false ∧
      groups.map Group.rule = result ∧
      (t.unresolvedAll (groups.filterMap Group.kept?)).outcome = .ok () ∧
      (t.undoSplit split trace).log = (t.unresolvedAll (groups.filterMap Group.kept?)).log := by
  unfold undoSplit at h ⊢
  obtain ⟨forest, hforest, h⟩ := Run.bind_eq_ok_iff.1 h
  obtain ⟨_, hpass, hresult⟩ := Run.bind_eq_ok_iff.1 h
  have htree := hforest
  rw [Tracer.forest, Run.outcome_ofExcept, Run.mapError_eq_ok_iff] at htree
  obtain ⟨-, rfl⟩ := Forest.ofDerivation_eq_ok_iff.1 htree
  refine ⟨_, rfl, Except.ok.inj hresult, hpass, ?_⟩
  rw [Run.log_bind, hforest]
  dsimp only
  rw [Run.log_bind, hpass]
  simp [Tracer.forest, Run.ofExcept]

/-- Where undoing the split succeeds, each rule of the result is kept from the rules traced back or
stands for a group of them, and each of the rules traced back, at its own place, belongs to exactly
one of these: to the rule that is kept, or to a group that has, in order, all the rules recorded for
the rule it stands for. Just the kept rules are reported, and the strict policy keeps none. One walk
over the tree, with a stack of trees and a second one below each node that may begin a group, does
the same. -/
theorem undoSplit_conserves (h : (t.undoSplit split trace).outcome = .ok result) :
    t.collapse split trace = t.undoSplit split trace ∧
    ∃ shares : List (Group × List (Rule × Nat)),
      shares.map (·.1.rule) = result ∧
      (∀ share ∈ shares,
        share.2.Sublist trace.zipIdx ∧ share.1.split? split = some (share.2.map (·.1))) ∧
      trace.zipIdx.Perm (shares.flatMap (·.2)) ∧
      trace.Perm (shares.filterMap (·.1.split? split)).flatten ∧
      (t.undoSplit split trace).log =
        (shares.filterMap (·.1.kept?)).map (fun rule =>
          .unresolvedKept (t.grammar.displayRule rule)) ∧
      (t.policy = .strict → ∀ share ∈ shares, ∃ origin, share.1 = .grouped origin) := by
  refine ⟨collapse_eq_undoSplit t split trace, ?_⟩
  obtain ⟨groups, hgroups, hresult, hpass, hlog⟩ := groups_of_undoSplit h
  have hstrict : t.policy = .strict → groups.filterMap Group.kept? = [] := fun hp => by
    rw [hgroups]
    exact (complete_of_undoSplit hp h).2
  have hshares := Forest.split?_of_mem_shares (m := split) false
    (Forest.ofRules t.grammar.isTerminal 0 trace)
  have hperm := Forest.perm_shares split false (Forest.ofRules t.grammar.isTerminal 0 trace)
  rw [← Forest.map_shares] at hgroups
  rw [Forest.entries_ofRules] at hshares hperm
  generalize (Forest.ofRules t.grammar.isTerminal 0 trace).shares split false = shares
    at hgroups hshares hperm
  have hkept : groups.filterMap Group.kept? = shares.filterMap (·.1.kept?) := by
    rw [hgroups, List.filterMap_map]
    rfl
  rw [log_unresolvedAll hpass, hkept] at hlog
  refine ⟨shares, ?_, hshares, hperm, ?_, hlog, fun hp share hshare => ?_⟩
  · rw [← hresult, hgroups, List.map_map]
    rfl
  · -- Without their places, the nodes of a share are the rules that its group stands for.
    have hparts : shares.filterMap (·.1.split? split) =
        shares.map fun share => share.2.map (·.1) := by
      rw [← List.filterMap_eq_map]
      exact List.filterMap_congr fun share hshare => (hshares share hshare).2
    have hrules := hperm.map Prod.fst
    rw [List.zipIdx_map_fst] at hrules
    rw [hparts, ← List.flatMap_def, ← List.map_flatMap]
    exact hrules
  · have hnone := hstrict hp
    rw [hkept] at hnone
    have hshare := List.filterMap_eq_nil_iff.1 hnone share hshare
    cases hgroup : share.1 with
    | grouped origin => exact ⟨origin, rfl⟩
    | kept rule =>
      rw [hgroup] at hshare
      exact absurd hshare (by simp [Group.kept?])

/-- The grammar with the variables `S`, `A` and `X` and the terminal `a`, without rules. -/
def patchwork : Grammar :=
  Grammar.empty
    |>.addVariable (some "S")
    |>.addVariable (some "A")
    |>.addVariable (some "X")
    |>.addTerminal "a"

/-- The rule `S → A A A` is split into `S → A X` and `X → A A`, where `X` is introduced, and the
rule `A → a` into itself. -/
def patchworkSplits : SplitMap :=
  SplitMap.empty
    |>.insert ⟨⟨0⟩, [⟨1⟩, ⟨1⟩, ⟨1⟩]⟩ [⟨⟨0⟩, [⟨1⟩, ⟨2⟩]⟩, ⟨⟨2⟩, [⟨1⟩, ⟨1⟩]⟩]
    |>.insert ⟨⟨1⟩, [⟨3⟩]⟩ [⟨⟨1⟩, [⟨3⟩]⟩]
    |>.markIntroduced ⟨2⟩

/-- A derivation in which `S → A X` begins a complete group at first. Below it, the rule `A → S` is
of unknown provenance, and there `S → A X` is followed by `X → a` and begins no group. -/
def patchworkTrace : Derivation :=
  [⟨⟨0⟩, [⟨1⟩, ⟨2⟩]⟩, ⟨⟨1⟩, [⟨3⟩]⟩, ⟨⟨2⟩, [⟨1⟩, ⟨1⟩]⟩, ⟨⟨1⟩, [⟨0⟩]⟩, ⟨⟨0⟩, [⟨1⟩, ⟨2⟩]⟩,
    ⟨⟨1⟩, [⟨3⟩]⟩, ⟨⟨2⟩, [⟨3⟩]⟩, ⟨⟨1⟩, [⟨3⟩]⟩]

/-- Of the eight rules, the first and the third make up one group, three are kept with a warning,
and the others stand for themselves. -/
theorem undoSplit_conserves_patchwork :
    ∃ shares : List (Group × List (Rule × Nat)),
      (undoSplit ⟨patchwork, .empty, .bestEffort⟩ patchworkSplits patchworkTrace).outcome =
        .ok (shares.map (·.1.rule)) ∧
      shares.map (·.1.rule) =
        [⟨⟨0⟩, [⟨1⟩, ⟨1⟩, ⟨1⟩]⟩, ⟨⟨1⟩, [⟨3⟩]⟩, ⟨⟨1⟩, [⟨0⟩]⟩, ⟨⟨0⟩, [⟨1⟩, ⟨2⟩]⟩, ⟨⟨1⟩, [⟨3⟩]⟩,
          ⟨⟨2⟩, [⟨3⟩]⟩, ⟨⟨1⟩, [⟨3⟩]⟩] ∧
      (∀ share ∈ shares, share.2.Sublist patchworkTrace.zipIdx ∧
        share.1.split? patchworkSplits = some (share.2.map (·.1))) ∧
      patchworkTrace.zipIdx.Perm (shares.flatMap (·.2)) ∧
      patchworkTrace.Perm (shares.filterMap (·.1.split? patchworkSplits)).flatten ∧
      (shares.filterMap (·.1.kept?)).length = 3 := by
  have hresult : (undoSplit ⟨patchwork, .empty, .bestEffort⟩ patchworkSplits
      patchworkTrace).outcome = .ok [⟨⟨0⟩, [⟨1⟩, ⟨1⟩, ⟨1⟩]⟩, ⟨⟨1⟩, [⟨3⟩]⟩, ⟨⟨1⟩, [⟨0⟩]⟩,
        ⟨⟨0⟩, [⟨1⟩, ⟨2⟩]⟩, ⟨⟨1⟩, [⟨3⟩]⟩, ⟨⟨2⟩, [⟨3⟩]⟩, ⟨⟨1⟩, [⟨3⟩]⟩] := by
    decide +kernel
  have hwarnings : (undoSplit ⟨patchwork, .empty, .bestEffort⟩ patchworkSplits
      patchworkTrace).log.length = 3 := by
    decide +kernel
  obtain ⟨-, shares, hrules, hshares, hperm, hparts, hlog, -⟩ := undoSplit_conserves hresult
  rw [hlog, List.length_map] at hwarnings
  exact ⟨shares, hrules ▸ hresult, hrules, hshares, hperm, hparts, hwarnings⟩

end Tracer

end ContextFree
