import ContextFree.Proofs.Derivation.Complete
import Mathlib.Data.List.Induction

/-!
# Where rules stop being a derivation

A list of rules that is no complete derivation has exactly one place where it fails to be one. Up to
that place the rules can be applied one after the other, and there the next one does not replace the
leftmost variable, or the rules are at an end and a variable is left (`Derivation.Misfit`). Looking
only at the variables that are pending finds this place (`Derivation.misfit?_eq_some_iff`).
-/

namespace ContextFree.Derivation

variable {isTerminal : Symbol → Bool} {form form' pending : List Symbol} {rule : Rule}
  {d e : Derivation} {position i : Nat}

/-- The symbols that the rules leave when the first one is applied to its own left-hand side,
whatever symbol that is, and each later one to the leftmost variable. There is no answer if a rule
cannot be applied, or if there is no rule to begin with. -/
def left? (isTerminal : Symbol → Bool) : Derivation → Option (List Symbol)
  | [] => none
  | rule :: rest => replay isTerminal rest rule.rhs

/-- The place where a list of rules fails to be a complete derivation. -/
inductive Misfit (isTerminal : Symbol → Bool) (d : Derivation) : Nat → Prop where
  /-- There is no rule at all. -/
  | empty (nil : d = []) : Misfit isTerminal d d.length
  /-- The rules before the place can be applied, and the leftmost variable that they leave is not
  the left-hand side of the rule there, or they leave no variable. -/
  | unfit {i : Nat} {rule : Rule} {form : List Symbol} (get : d[i]? = some rule)
      (before : left? isTerminal (d.take i) = some form)
      (leftmost : form.find? (fun s => !isTerminal s) ≠ some rule.lhs) : Misfit isTerminal d i
  /-- All rules can be applied, and they leave a variable. -/
  | unfinished {form : List Symbol} {s : Symbol} (all : left? isTerminal d = some form)
      (mem : s ∈ form) (isVariable : isTerminal s = false) : Misfit isTerminal d d.length

/-- A rule cannot be applied exactly when the leftmost variable, if there is one, is not its
left-hand side. -/
theorem applyLeftmost_eq_none_iff :
    rule.applyLeftmost isTerminal form = none ↔
      form.find? (fun s => !isTerminal s) ≠ some rule.lhs := by
  induction form with
  | nil => simp [Rule.applyLeftmost]
  | cons s form ih =>
    rw [Rule.applyLeftmost, List.find?_cons]
    cases isTerminal s with
    | true => simpa using ih
    | false => simp [eq_comm]

/-- One more rule is applied to what the others leave. -/
theorem left?_concat (hne : d ≠ []) :
    left? isTerminal (d ++ [rule]) = (left? isTerminal d).bind (rule.applyLeftmost isTerminal) := by
  cases d with
  | nil => exact absurd rfl hne
  | cons first d =>
    rw [List.cons_append, left?, left?, replay_append]
    refine congrArg _ (funext fun form => ?_)
    rw [replay]
    exact Option.bind_fun_some _

/-- The rules are complete exactly when all of them can be applied and leave no variable. -/
theorem complete_iff_left? :
    Complete isTerminal d ↔
      ∃ word, left? isTerminal d = some word ∧ ∀ a ∈ word, isTerminal a = true := by
  cases d with
  | nil => simp [Complete, left?]
  | cons rule d => rfl

/-- Rules that cannot all be applied fail at some place. -/
theorem exists_misfit_of_left? (h : left? isTerminal d = none) : ∃ i, Misfit isTerminal d i := by
  induction d using List.reverseRecOn with
  | nil => exact ⟨_, .empty rfl⟩
  | append_singleton d rule ih =>
    by_cases hne : d = []
    · subst hne
      exact absurd h (by simp [left?, replay])
    rw [left?_concat hne] at h
    cases hd : left? isTerminal d with
    | some form =>
      -- The rules before the last one can be applied, so it is the last one that fails.
      rw [hd] at h
      refine ⟨d.length, .unfit (by simp) ?_ (applyLeftmost_eq_none_iff.1 h)⟩
      rw [List.take_left]
      exact hd
    | none =>
      obtain ⟨i, hi⟩ := ih hd
      cases hi with
      | empty hnil => exact absurd hnil hne
      | unfinished hall _ _ => exact absurd (hd.symm.trans hall) (by simp)
      | @unfit i other form hget hbefore hleftmost =>
        have hi : i < d.length := (List.getElem?_eq_some_iff.1 hget).1
        refine ⟨i, .unfit ?_ ?_ hleftmost⟩
        · rwa [List.getElem?_append_left hi]
        · rwa [List.take_append_of_le_length (Nat.le_of_lt hi)]

/-- Rules that are not complete fail at some place. -/
theorem exists_misfit_of_not_complete (h : ¬Complete isTerminal d) :
    ∃ i, Misfit isTerminal d i := by
  cases hd : left? isTerminal d with
  | none => exact exists_misfit_of_left? hd
  | some form =>
    by_contra hnone
    refine h (complete_iff_left?.2 ⟨form, hd, fun a ha => ?_⟩)
    by_contra hvariable
    exact hnone ⟨_, .unfinished hd ha (by simpa using hvariable)⟩

/-! ## The place that is found -/

/-- A rule does not fit if the leftmost pending variable, if there is one, is another one. -/
theorem misfitFrom_cons_of_ne (h : pending.head? ≠ some rule.lhs) :
    misfitFrom isTerminal position pending (rule :: d) = some position := by
  cases pending with
  | nil => rfl
  | cons s pending =>
    rw [misfitFrom, if_neg]
    rintro rfl
    exact h rfl

/-- Where rules can be applied, the search for a misfit goes on behind them, with the variables that
they leave. -/
theorem misfitFrom_append (position : Nat) (e : Derivation)
    (h : replay isTerminal d form = some form') :
    misfitFrom isTerminal position (form.filter fun s => !isTerminal s) (d ++ e) =
      misfitFrom isTerminal (position + d.length) (form'.filter fun s => !isTerminal s) e := by
  induction d generalizing form position with
  | nil =>
    obtain rfl := Option.some.inj h
    rfl
  | cons rule d ih =>
    rw [replay, Option.bind_eq_some_iff] at h
    obtain ⟨between, happly, hd⟩ := h
    obtain ⟨u, rest, hu, hv, rfl, rfl⟩ := applyLeftmost_eq_some_iff.1 happly
    have hnone : (u.filter fun s => !isTerminal s) = [] := by simpa using hu
    have hrest := ih (position + 1) hd
    rw [List.filter_append, hnone, List.nil_append, List.filter_append] at hrest
    rw [List.filter_append, hnone, List.nil_append, List.filter_cons_of_pos (by simp [hv]),
      List.cons_append, misfitFrom, if_pos rfl, Rule.variableList, hrest, List.length_cons,
      Nat.add_right_comm, Nat.add_assoc]

/-- What follows rules that can be applied decides about the misfit. -/
theorem misfit?_append (h : left? isTerminal d = some form) :
    misfit? isTerminal (d ++ e) =
      misfitFrom isTerminal d.length (form.filter fun s => !isTerminal s) e := by
  cases d with
  | nil => exact absurd h (by simp [left?])
  | cons rule d =>
    have hrest := misfitFrom_append 1 e h
    rw [List.cons_append, misfit?, misfitFrom, if_pos rfl, List.append_nil, Rule.variableList,
      Nat.zero_add, hrest, List.length_cons, Nat.add_comm]

/-- The place where rules fail is the one found. -/
theorem Misfit.misfit?_eq (h : Misfit isTerminal d i) : misfit? isTerminal d = some i := by
  cases h with
  | empty hnil =>
    subst hnil
    rfl
  | @unfit i rule form hget hbefore hleftmost =>
    obtain ⟨hi, rfl⟩ := List.getElem?_eq_some_iff.1 hget
    have hsplit : d = d.take i ++ d[i] :: d.drop (i + 1) := by simp
    rw [hsplit, misfit?_append hbefore, List.length_take_of_le (Nat.le_of_lt hi)]
    apply misfitFrom_cons_of_ne
    rwa [List.head?_filter]
  | @unfinished form s hall hmem hvariable =>
    have hd := misfit?_append (e := []) hall
    rw [List.append_nil] at hd
    rw [hd]
    -- Some variable is pending, and no rule is left for it.
    cases hpending : form.filter fun s => !isTerminal s with
    | nil =>
      have := List.filter_eq_nil_iff.1 hpending s hmem
      exact absurd hvariable (by simpa using this)
    | cons => rfl

/-- The place found is the one where the rules fail to be a complete derivation. -/
theorem misfit?_eq_some_iff : misfit? isTerminal d = some i ↔ Misfit isTerminal d i := by
  refine ⟨fun h => ?_, Misfit.misfit?_eq⟩
  have hnot : ¬Complete isTerminal d := by
    rw [← misfit?_eq_none_iff, h]
    simp
  obtain ⟨j, hj⟩ := exists_misfit_of_not_complete hnot
  obtain rfl := Option.some.inj (h.symm.trans hj.misfit?_eq)
  exact hj

end ContextFree.Derivation
