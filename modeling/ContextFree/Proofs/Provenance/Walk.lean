import ContextFree.Proofs.Provenance.TraceBack

/-!
# Grouping with stacks

Undoing the split into normal form can also be done in one walk over the tree, without knowing in
advance which nodes a group takes. A stack holds the trees that are still to be visited, and when a
node may begin a group, a second stack goes down from it through the nodes of introduced variables
and sets the trees below them aside (`Forest.scan`). If the rules found there are those of the
split, the walk goes on with the trees set aside; if not, the node is kept and the walk goes on with
the trees directly below it (`Tracer.walk`). What a stack still has to give are the groups of its
trees (`Tracer.walk_eq`), so both ways report the same and end in the same way
(`Tracer.collapse_eq_undoSplit`).
-/

namespace ContextFree

namespace Forest

theorem append_nil (forest : Forest) : forest.append nil = forest := by
  induction forest with
  | nil => rfl
  | cons index rule children siblings _ ih => rw [append, ih]

theorem append_assoc (first second third : Forest) :
    (first.append second).append third = first.append (second.append third) := by
  induction first with
  | nil => rfl
  | cons index rule children siblings _ ih => rw [append, append, append, ih]

theorem rules_append (first second : Forest) :
    (first.append second).rules = first.rules ++ second.rules := by
  induction first with
  | nil => rfl
  | cons index rule children siblings _ ih => simp [append, rules, ih]

theorem region_append (m : SplitMap) (first second : Forest) :
    (first.append second).region m = first.region m ++ second.region m := by
  induction first with
  | nil => rfl
  | cons index rule children siblings _ ih => rw [append, region, region, ih, List.append_assoc]

theorem groups_append (m : SplitMap) (absorbed : Bool) (first second : Forest) :
    (first.append second).groups m absorbed =
      first.groups m absorbed ++ second.groups m absorbed := by
  induction first with
  | nil => rfl
  | cons index rule children siblings _ ih => rw [append, groups, groups, ih, List.append_assoc]

/-! ## The nodes that a group takes -/

/-- The topmost trees of variables that were not introduced, in order. -/
def real (m : SplitMap) : Forest → Forest
  | nil => nil
  | cons index rule children siblings =>
    if m.isIntroduced rule.lhs then (children.real m).append (siblings.real m)
    else cons index rule children (siblings.real m)

/-- Goes through a stack of trees, the next one first. The rule of an introduced variable belongs to
the region, and the trees below it go on the stack; any other tree is set aside. -/
def scan (m : SplitMap) (region : Derivation) (aside : Forest) : Forest → Derivation × Forest
  | nil => (region, aside)
  | cons index rule children siblings =>
    if m.isIntroduced rule.lhs then scan m (region ++ [rule]) aside (children.append siblings)
    else scan m region (aside.append (cons index rule children nil)) siblings
termination_by stack => stack.rules.length
decreasing_by
  · rw [rules_append, rules, List.length_cons]
    exact Nat.lt_succ_self _
  · rw [rules, List.length_cons, List.length_append]
    omega

/-- The group that a node begins, with the trees below the group; none if the rules found are not
those of the split. -/
def group? (m : SplitMap) (rule : Rule) (children : Forest) : Option (Rule × Forest) :=
  match m.groupOf? rule with
  | some (origin, split) =>
    let (region, aside) := scan m [rule] nil children
    if region = split then some (origin, aside) else none
  | none => none

theorem real_append (m : SplitMap) (first second : Forest) :
    (first.append second).real m = (first.real m).append (second.real m) := by
  induction first with
  | nil => rfl
  | cons index rule children siblings _ ih =>
    rw [append, real, real, ih]
    split
    · rw [append_assoc]
    · rfl

/-- A stack still has to give the region of its trees, and to set aside those below the region. -/
theorem scan_eq (m : SplitMap) (region : Derivation) (aside stack : Forest) :
    scan m region aside stack = (region ++ stack.region m, aside.append (stack.real m)) := by
  fun_induction scan m region aside stack with
  | case1 region aside => rw [Forest.region, real, List.append_nil, append_nil]
  | case2 region aside index rule children siblings hintro ih =>
    rw [ih, Forest.region, real, if_pos hintro, if_pos hintro, region_append, real_append]
    simp
  | case3 region aside index rule children siblings hreal ih =>
    rw [ih, Forest.region, real, if_neg hreal, if_neg hreal, append_assoc]
    rfl

/-- The group found is the one that the node stands for. -/
theorem group?_eq (m : SplitMap) (rule : Rule) (children : Forest) :
    group? m rule children =
      (origin? m rule children).map fun origin => (origin, children.real m) := by
  unfold group? origin?
  cases m.groupOf? rule with
  | none => rfl
  | some entry =>
    dsimp only
    rw [scan_eq]
    show (if rule :: children.region m = entry.2 then some (entry.1, children.real m) else none) = _
    split
    · rfl
    · rfl

/-- Setting trees aside makes none of them larger. -/
theorem length_rules_real_le (m : SplitMap) (forest : Forest) :
    (forest.real m).rules.length ≤ forest.rules.length := by
  induction forest with
  | nil => exact Nat.le_refl _
  | cons index rule children siblings ihChildren ihSiblings =>
    rw [real]
    split
    · rw [rules_append, rules, List.length_append, List.length_cons, List.length_append]
      omega
    · rw [rules, rules, List.length_cons, List.length_cons, List.length_append, List.length_append]
      omega

/-- Below a group, the walk goes on as it does from the trees set aside. -/
theorem groups_real (m : SplitMap) (forest : Forest) :
    (forest.real m).groups m false = forest.groups m true := by
  induction forest with
  | nil => rfl
  | cons index rule children siblings ihChildren ihSiblings =>
    rw [real, groups]
    split
    · next hintro =>
      rw [groups_append, ihChildren, ihSiblings, if_pos (by simpa using hintro)]
    · next hreal =>
      rw [groups, ihSiblings, if_neg (by simp), if_neg (by simpa using hreal)]

end Forest

namespace Tracer

/-- Walks over a stack of trees, the next one first, and adds what each group stands for to the
result. A rule that begins no group is dealt with as one of unknown provenance. -/
def walk (t : Tracer) (m : SplitMap) (result : Derivation) : Forest → Run TraceError Derivation
  | .nil => pure result
  | .cons _ rule children siblings =>
    match _h : Forest.group? m rule children with
    | some (origin, aside) => walk t m (result ++ [origin]) (aside.append siblings)
    | none => do
      t.unresolved rule
      walk t m (result ++ [rule]) (children.append siblings)
termination_by stack => stack.rules.length
decreasing_by
  · rw [Forest.group?_eq, Option.map_eq_some_iff] at _h
    obtain ⟨_, -, heq⟩ := _h
    obtain ⟨-, rfl⟩ := Prod.mk.inj heq
    have hle := Forest.length_rules_real_le m children
    rw [Forest.rules_append, Forest.rules, List.length_append, List.length_cons, List.length_append]
    omega
  · rw [Forest.rules_append, Forest.rules, List.length_cons]
    exact Nat.lt_succ_self _

/-- Undoes the split into normal form in one walk over the tree. -/
def collapse (t : Tracer) (split : SplitMap) (derivation : Derivation) :
    Run TraceError Derivation := do
  let forest ← t.forest derivation
  t.walk split [] forest

/-- A stack still has to give the groups of its trees, and to deal with the rules that are kept. -/
theorem walk_eq (t : Tracer) (m : SplitMap) (result : Derivation) (stack : Forest) :
    t.walk m result stack = do
      t.unresolvedAll ((stack.groups m false).filterMap Group.kept?)
      return result ++ (stack.groups m false).map Group.rule := by
  fun_induction walk t m result stack with
  | case1 result => simp [Forest.groups, unresolvedAll]
  | case2 result index rule children siblings origin aside hgroup ih =>
    rw [Forest.group?_eq, Option.map_eq_some_iff] at hgroup
    obtain ⟨origin, horigin, heq⟩ := hgroup
    obtain ⟨rfl, rfl⟩ := Prod.mk.inj heq
    have hgroups : (Forest.cons index rule children siblings).groups m false =
        .grouped origin :: (children.groups m true ++ siblings.groups m false) := by
      simp [Forest.groups, horigin]
    rw [ih, Forest.groups_append, Forest.groups_real, hgroups, List.filterMap_cons_none rfl,
      List.append_assoc]
    rfl
  | case3 result index rule children siblings hgroup ih =>
    rw [Forest.group?_eq, Option.map_eq_none_iff] at hgroup
    have hgroups : (Forest.cons index rule children siblings).groups m false =
        .kept rule :: (children.groups m false ++ siblings.groups m false) := by
      simp [Forest.groups, hgroup]
    have hkept : Group.kept? (.kept rule) = some rule := rfl
    rw [ih, Forest.groups_append, hgroups, List.filterMap_cons_some hkept, unresolvedAll,
      bind_assoc, List.append_assoc]
    rfl

/-- One walk over the tree undoes the split, with the same reports and the same end. -/
theorem collapse_eq_undoSplit (t : Tracer) (split : SplitMap) (derivation : Derivation) :
    t.collapse split derivation = t.undoSplit split derivation := by
  unfold collapse undoSplit
  refine congrArg _ (funext fun forest => ?_)
  rw [walk_eq]
  rfl

end Tracer

end ContextFree
