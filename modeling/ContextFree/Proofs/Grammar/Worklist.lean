import ContextFree.Proofs.Grammar.Closure
import Mathlib.Data.Set.Operations

/-!
# Closures by a stack of symbols

A closure can also be found without going over all rules again and again. A stack holds the symbols
of the set whose occurrences were not yet looked at; when a symbol is taken off, the property can
only have become able to spread over the rules that it occurs in, and every left-hand side that is
new goes on the stack (`Worklist.run`). The stack runs empty because each symbol put on it settles
a rule (`Worklist.work_look_le`). What is left to do is on the stack all the time
(`Worklist.Settled`), so that in the end nothing is left, and the set is the same as the one that
rounds over the pending rules find (`Grammar.closeByWork_eq`).
-/

namespace ContextFree

variable {g : Grammar} {mode : Spread} {rule : Rule} {rules : List Rule} {set set' : SymbolSet}

/-! ## What spreads over a rule -/

/-- Whether a property of symbols spreads over the rule, for any property: from all symbols of a
right-hand side that is not empty, or from some of them. -/
def Rule.SpreadsFrom (mode : Spread) (N : Set Symbol) (rule : Rule) : Prop :=
  match mode with
  | .all => rule.rhs ≠ [] ∧ ∀ s ∈ rule.rhs, s ∈ N
  | .any => ∃ s ∈ rule.rhs, s ∈ N

/-- For the members of a set of symbols, this is what is tested. -/
theorem Rule.spreadsFrom_iff :
    rule.SpreadsFrom mode {s | s ∈ set} ↔ rule.spreads mode set = true := by
  cases mode with
  | all => exact Rule.spreads_all_iff.symm
  | any => simp [Rule.SpreadsFrom, Rule.spreads]

/-- What spreads from some symbols does so from more. -/
theorem Rule.SpreadsFrom.mono {N M : Set Symbol} (h : rule.SpreadsFrom mode N) (hsub : N ⊆ M) :
    rule.SpreadsFrom mode M := by
  cases mode with
  | all => exact ⟨h.1, fun s hs => hsub (h.2 s hs)⟩
  | any =>
    obtain ⟨s, hs, hmem⟩ := h
    exact ⟨s, hs, hsub hmem⟩

/-- What spreads over a rule still does when the set grows. -/
theorem Rule.spreads_mono (h : rule.spreads mode set = true) (hsub : ∀ s ∈ set, s ∈ set') :
    rule.spreads mode set' = true :=
  Rule.spreadsFrom_iff.1 ((Rule.spreadsFrom_iff.2 h).mono hsub)

/-- What spreads over a rule does so from some symbol of its right-hand side. -/
theorem Rule.exists_mem_of_spreads (h : rule.spreads mode set = true) :
    ∃ s ∈ rule.rhs, s ∈ set := by
  cases mode with
  | all =>
    obtain ⟨hne, hall⟩ := Rule.spreads_all_iff.1 h
    obtain ⟨s, hs⟩ := List.exists_mem_of_ne_nil _ hne
    exact ⟨s, hs, hall s hs⟩
  | any => simpa [Rule.spreads] using h

/-- When a set comes to spread over a rule by growing, it has grown by a symbol of the right-hand
side. -/
theorem Rule.exists_new_of_spreads (h : rule.spreads mode set' = true)
    (hnot : ¬rule.spreads mode set = true) : ∃ s ∈ rule.rhs, s ∈ set' ∧ s ∉ set := by
  cases mode with
  | all =>
    obtain ⟨hne, hall⟩ := Rule.spreads_all_iff.1 h
    have hmissing : ¬∀ s ∈ rule.rhs, s ∈ set := fun hs => hnot (Rule.spreads_all_iff.2 ⟨hne, hs⟩)
    obtain ⟨s, hs⟩ := Classical.not_forall.1 hmissing
    obtain ⟨hrhs, hnew⟩ := Classical.not_imp.1 hs
    exact ⟨s, hrhs, hall s hrhs, hnew⟩
  | any =>
    obtain ⟨s, hs, hmem⟩ := Rule.exists_mem_of_spreads h
    refine ⟨s, hs, hmem, fun hold => hnot ?_⟩
    exact List.any_eq_true.2 ⟨s, hs, SymbolSet.contains_iff.2 hold⟩

/-! ## The stack -/

/-- The rules that the symbol occurs in on the right-hand side, in order and each of them once. -/
def Grammar.occurrences (g : Grammar) (s : Symbol) : List Rule := g.rules.filter (·.rhs.contains s)

/-- A set that grows, and the members of it whose occurrences are still to be looked at. -/
structure Worklist where
  /-- The symbols that have the property. -/
  set : SymbolSet
  /-- The symbols to look at, the next one first. -/
  stack : List Symbol

namespace Worklist

variable {w w' w'' : Worklist} {s : Symbol}

/-- Looks at a rule. If the property spreads over it to a left-hand side that did not have it yet,
that symbol gets it and has to be looked at in its turn. -/
def look (mode : Spread) (w : Worklist) (rule : Rule) : Worklist :=
  if rule.lhs ∉ w.set ∧ rule.spreads mode w.set then
    ⟨w.set.insert rule.lhs, rule.lhs :: w.stack⟩
  else w

/-- How much there may be to do: the symbols on the stack, and the rules that may still put one
there. -/
def work (g : Grammar) (w : Worklist) : Nat :=
  w.stack.length + (g.rules.filter fun rule => rule.lhs ∉ w.set).length

/-- Either a rule is looked at in vain, or its left-hand side is new and is added. -/
theorem look_cases (mode : Spread) (w : Worklist) (rule : Rule) :
    w.look mode rule = w ∧ (rule.lhs ∈ w.set ∨ ¬rule.spreads mode w.set = true) ∨
      w.look mode rule = ⟨w.set.insert rule.lhs, rule.lhs :: w.stack⟩ ∧
        rule.lhs ∉ w.set ∧ rule.spreads mode w.set = true := by
  unfold look
  split
  · next h => exact .inr ⟨rfl, h⟩
  · next h =>
    refine .inl ⟨rfl, ?_⟩
    by_cases hmem : rule.lhs ∈ w.set
    · exact .inl hmem
    · exact .inr fun hspread => h ⟨hmem, hspread⟩

/-- Looking at a rule makes no more work: for what it puts on the stack, at least one rule is
settled. -/
theorem work_look_le (hr : rule ∈ g.rules) : (w.look mode rule).work g ≤ w.work g := by
  rcases look_cases mode w rule with ⟨heq, -⟩ | ⟨heq, hnew, -⟩
  · exact Nat.le_of_eq (congrArg (work g) heq)
  · rw [heq, work, work, List.length_cons]
    -- The rules that are open afterwards were open before, and the rule itself is not among them.
    have hopen : (g.rules.filter fun r => r.lhs ∉ w.set.insert rule.lhs) =
        (g.rules.filter fun r => r.lhs ∉ w.set).filter fun r => r.lhs ≠ rule.lhs := by
      simp [List.filter_filter]
    have hself : rule ∈ g.rules.filter fun r => r.lhs ∉ w.set :=
      List.mem_filter.2 ⟨hr, by simpa using hnew⟩
    have hlt : ((g.rules.filter fun r => r.lhs ∉ w.set).filter fun r => r.lhs ≠ rule.lhs).length <
        (g.rules.filter fun r => r.lhs ∉ w.set).length :=
      List.length_filter_lt_length_iff_exists.2 ⟨rule, hself, by simp⟩
    rw [hopen]
    omega

theorem work_foldl_look_le (hr : ∀ rule ∈ rules, rule ∈ g.rules) :
    (rules.foldl (look mode) w).work g ≤ w.work g := by
  induction rules generalizing w with
  | nil => exact Nat.le_refl _
  | cons rule rules ih =>
    have hrest := ih (w := w.look mode rule) fun r hm => hr r (by simp [hm])
    exact Nat.le_trans hrest (work_look_le (hr rule (by simp)))

/-- Looks at the occurrences of one symbol after the other, until the stack is empty. -/
def run (g : Grammar) (mode : Spread) : Worklist → SymbolSet
  | ⟨set, []⟩ => set
  | ⟨set, s :: stack⟩ => run g mode ((g.occurrences s).foldl (look mode) ⟨set, stack⟩)
termination_by w => w.work g
decreasing_by
  refine Nat.lt_of_le_of_lt (work_foldl_look_le fun rule hr => (List.mem_filter.1 hr).1) ?_
  simp only [work, List.length_cons]
  omega

end Worklist

/-- The closure of a set, found with a stack that begins with its members, the last one on top. -/
def Grammar.closeByWork (g : Grammar) (mode : Spread) (set : SymbolSet) : SymbolSet :=
  Worklist.run g mode ⟨set, set.members.reverse⟩

namespace Worklist

/-! ## What is left to do is on the stack -/

variable {w w' w'' : Worklist} {s : Symbol}

/-- The second list comes from the first by adding symbols and putting each of them on the stack. -/
structure Grows (w w' : Worklist) : Prop where
  /-- No member is lost. -/
  set : ∀ s ∈ w.set, s ∈ w'.set
  /-- Nothing is taken off the stack. -/
  stack : ∀ s ∈ w.stack, s ∈ w'.stack
  /-- A symbol that is new is on the stack. -/
  new : ∀ s ∈ w'.set, s ∈ w.set ∨ s ∈ w'.stack

theorem Grows.refl (w : Worklist) : Grows w w := ⟨fun _ h => h, fun _ h => h, fun _ h => .inl h⟩

theorem Grows.trans (h : Grows w w') (h' : Grows w' w'') : Grows w w'' := by
  refine ⟨fun s hs => h'.set s (h.set s hs), fun s hs => h'.stack s (h.stack s hs), fun s hs => ?_⟩
  rcases h'.new s hs with hs | hs
  · exact (h.new s hs).imp_right (h'.stack s)
  · exact .inr hs

theorem grows_look (mode : Spread) (w : Worklist) (rule : Rule) : Grows w (w.look mode rule) := by
  rcases look_cases mode w rule with ⟨heq, -⟩ | ⟨heq, -, -⟩
  · rw [heq]
    exact .refl w
  · rw [heq]
    refine ⟨fun s hs => SymbolSet.mem_insert.2 (.inr hs), fun s hs => List.mem_cons_of_mem _ hs,
      fun s hs => ?_⟩
    rcases SymbolSet.mem_insert.1 hs with rfl | hs
    · exact .inr (by simp)
    · exact .inl hs

/-- A rule that was looked at and that the property spreads over has its left-hand side added. -/
theorem lhs_mem_look (h : rule.spreads mode w.set = true) :
    rule.lhs ∈ (w.look mode rule).set := by
  rcases look_cases mode w rule with ⟨heq, hmem | hnot⟩ | ⟨heq, -, -⟩
  · rwa [heq]
  · exact absurd h hnot
  · rw [heq]
    exact SymbolSet.mem_insert.2 (.inl rfl)

/-- Looking at rules one after the other lets the set and the stack grow, and leaves no rule among
them behind that the property was able to spread over. -/
theorem grows_foldl_look (mode : Spread) (rules : List Rule) (w : Worklist) :
    Grows w (rules.foldl (look mode) w) ∧
      ∀ rule ∈ rules, rule.spreads mode w.set = true →
        rule.lhs ∈ (rules.foldl (look mode) w).set := by
  induction rules generalizing w with
  | nil => exact ⟨.refl w, by simp⟩
  | cons rule rules ih =>
    obtain ⟨hgrows, hdone⟩ := ih (w.look mode rule)
    have hlook := grows_look mode w rule
    refine ⟨hlook.trans hgrows, fun r hr hspread => ?_⟩
    rcases List.mem_cons.1 hr with rfl | hr
    · exact hgrows.set _ (lhs_mem_look hspread)
    · exact hdone r hr (Rule.spreads_mono hspread hlook.set)

/-- Whatever can still be added comes from the occurrences of a symbol on the stack. -/
def Settled (g : Grammar) (mode : Spread) (w : Worklist) : Prop :=
  ∀ rule ∈ g.rules, rule.spreads mode w.set = true →
    rule.lhs ∈ w.set ∨ ∃ s ∈ rule.rhs, s ∈ w.stack

/-- With all its members on the stack, a set is settled. -/
theorem settled_members (g : Grammar) (mode : Spread) (set : SymbolSet) :
    Settled g mode ⟨set, set.members.reverse⟩ := by
  intro rule _ hspread
  obtain ⟨s, hs, hmem⟩ := Rule.exists_mem_of_spreads hspread
  exact .inr ⟨s, hs, List.mem_reverse.2 hmem⟩

/-- Looking at all occurrences of the symbol on top keeps the list settled without it. -/
theorem Settled.foldl_look {stack : List Symbol} (h : Settled g mode ⟨set, s :: stack⟩) :
    Settled g mode ((g.occurrences s).foldl (look mode) ⟨set, stack⟩) := by
  obtain ⟨hgrows, hdone⟩ := grows_foldl_look mode (g.occurrences s) ⟨set, stack⟩
  intro rule hr hspread
  by_cases hbefore : rule.spreads mode set = true
  · rcases h rule hr hbefore with hlhs | ⟨t, ht, hstack⟩
    · exact .inl (hgrows.set _ hlhs)
    · rcases List.mem_cons.1 hstack with rfl | hstack
      · -- The symbol that was taken off occurs in the rule, so the rule was looked at.
        have hocc : rule ∈ g.occurrences t := List.mem_filter.2 ⟨hr, by simpa using ht⟩
        exact .inl (hdone rule hocc hbefore)
      · exact .inr ⟨t, ht, hgrows.stack t hstack⟩
  · -- The property has only now become able to spread over the rule, by a symbol that is new.
    obtain ⟨t, ht, hmem, hnew⟩ := Rule.exists_new_of_spreads hspread hbefore
    exact .inr ⟨t, ht, (hgrows.new t hmem).resolve_left hnew⟩

/-- A property of sets that looking at a rule preserves is preserved to the end. -/
theorem run_induction {P : SymbolSet → Prop} (hset : P w.set)
    (hstep : ∀ rule ∈ g.rules, ∀ t : SymbolSet, P t → rule.spreads mode t = true →
      P (t.insert rule.lhs)) : P (run g mode w) := by
  have hfold : ∀ (rules : List Rule) (v : Worklist), (∀ rule ∈ rules, rule ∈ g.rules) → P v.set →
      P (rules.foldl (look mode) v).set := by
    intro rules
    induction rules with
    | nil => exact fun v _ hv => hv
    | cons rule rules ih =>
      intro v hr hv
      refine ih _ (fun r hm => hr r (by simp [hm])) ?_
      rcases look_cases mode v rule with ⟨heq, -⟩ | ⟨heq, -, hspread⟩
      · rwa [heq]
      · rw [heq]
        exact hstep rule (hr rule (by simp)) v.set hv hspread
  fun_induction run g mode w with
  | case1 set => exact hset
  | case2 set s stack ih =>
    exact ih (hfold (g.occurrences s) ⟨set, stack⟩ (fun r hm => (List.mem_filter.1 hm).1) hset)

/-- When the stack is empty, no rule spreads any further. -/
theorem Settled.lhs_mem_run (h : Settled g mode w) (hr : rule ∈ g.rules)
    (hs : rule.spreads mode (run g mode w) = true) : rule.lhs ∈ run g mode w := by
  fun_induction run g mode w with
  | case1 set =>
    rcases h rule hr hs with hlhs | ⟨t, -, hstack⟩
    · exact hlhs
    · exact absurd hstack List.not_mem_nil
  | case2 set s stack ih => exact ih h.foldl_look hs

end Worklist

/-! ## The same set -/

namespace SymbolSet

variable {base t : SymbolSet}

/-- The set covers what the base covers and its own members, and no more. -/
def WidenedFrom (base t : SymbolSet) : Prop :=
  base.width ≤ t.width ∧ ∀ n, base.width ≤ n → (∀ s ∈ t, s.id < n) → t.width ≤ n

theorem WidenedFrom.refl (base : SymbolSet) : WidenedFrom base base :=
  ⟨Nat.le_refl _, fun _ h _ => h⟩

theorem WidenedFrom.insert (h : WidenedFrom base t) (s : Symbol) :
    WidenedFrom base (t.insert s) := by
  refine ⟨Nat.le_trans h.1 (Nat.le_max_left _ _), fun n hbase hn => ?_⟩
  have hs : s.id < n := hn s (mem_insert.2 (.inl rfl))
  have ht := h.2 n hbase fun x hx => hn x (mem_insert.2 (.inr hx))
  exact Nat.max_le.2 ⟨ht, hs⟩

theorem WidenedFrom.insertAll (h : WidenedFrom base t) (symbols : List Symbol) :
    WidenedFrom base (t.insertAll symbols) := by
  unfold SymbolSet.insertAll
  induction symbols generalizing t with
  | nil => exact h
  | cons s symbols ih => exact ih (h.insert s)

theorem WidenedFrom.spread (h : WidenedFrom base t) (mode : Spread) (fuel : Nat)
    (pending : List Rule) : WidenedFrom base (t.spread mode fuel pending) := by
  induction fuel generalizing t pending with
  | zero => exact h
  | succ fuel ih =>
    unfold SymbolSet.spread
    dsimp only
    split
    · exact h
    · exact ih (h.insertAll _) _

/-- Sets with the same members that were widened from the same base are the same. -/
theorem WidenedFrom.eq (h : WidenedFrom base set) (h' : WidenedFrom base set')
    (hmem : ∀ s, s ∈ set ↔ s ∈ set') : set = set' := by
  have hle := h.2 set'.width h'.1 fun s hs => set'.covered s ((hmem s).1 hs)
  have hge := h'.2 set.width h.1 fun s hs => set.covered s ((hmem s).2 hs)
  exact ext_contains (Nat.le_antisymm hle hge) hmem

end SymbolSet

namespace Grammar

/-- A closure found with a stack is the same set as the one found by going over the pending rules
in rounds. -/
theorem closeByWork_eq (g : Grammar) (mode : Spread) (set : SymbolSet) :
    g.closeByWork mode set = g.close mode set := by
  have hwork : SymbolSet.WidenedFrom set (g.closeByWork mode set) :=
    Worklist.run_induction (.refl set) fun rule _ t ht _ => ht.insert rule.lhs
  have hrounds : SymbolSet.WidenedFrom set (g.close mode set) :=
    (SymbolSet.WidenedFrom.refl set).spread ..
  refine hwork.eq hrounds fun s => ⟨fun hs => ?_, fun hs => ?_⟩
  · -- What the stack adds spreads over the closure as well, which is closed.
    refine Worklist.run_induction (P := fun t => ∀ s ∈ t, s ∈ g.close mode set)
      (fun s hs => mem_close_of_mem hs) (fun rule hr t ht hspread s hs => ?_) s hs
    rcases SymbolSet.mem_insert.1 hs with rfl | hs
    · exact lhs_mem_close hr (Rule.spreads_mono hspread ht)
    · exact ht s hs
  · have hset : ∀ s ∈ set, s ∈ g.closeByWork mode set :=
      Worklist.run_induction (P := fun t => ∀ s ∈ set, s ∈ t) (fun s hs => hs)
        fun rule _ t ht _ s hs => SymbolSet.mem_insert.2 (.inr (ht s hs))
    refine close_least hset (fun rule hr t ht hspread => ?_) s hs
    exact (Worklist.settled_members g mode set).lhs_mem_run hr (Rule.spreads_mono hspread ht)

end Grammar

end ContextFree
