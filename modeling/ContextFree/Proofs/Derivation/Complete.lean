import ContextFree.Proofs.Derivation.Leftmost

/-!
# Complete lists of rules

A list of rules is a complete derivation in pre-order when its first rule is applied to its own
left-hand side, each later one to the leftmost variable, and nothing but terminals is left in the
end (`Derivation.Complete`). Looking only at the variables that are still pending finds a misfit
exactly when the list is not complete (`Derivation.misfit?_eq_none_iff`). A derivation from a
variable is complete (`Grammar.Derives.complete`), and a complete list of rules of a grammar is a
derivation (`Derivation.Complete.exists_derives`).
-/

namespace ContextFree

variable {isTerminal : Symbol → Bool} {form : List Symbol} {rule : Rule} {d : Derivation}

namespace Derivation

/-- The rules take the symbols, leftmost variable by leftmost variable, to a word of terminals. -/
def Completes (isTerminal : Symbol → Bool) (d : Derivation) (form : List Symbol) : Prop :=
  ∃ word, replay isTerminal d form = some word ∧ ∀ a ∈ word, isTerminal a = true

instance (d : Derivation) (form : List Symbol) : Decidable (Completes isTerminal d form) :=
  decidable_of_iff ((replay isTerminal d form).any (·.all isTerminal) = true) <| by
    simp [Completes, Option.any_eq_true]

/-- The rules make up a complete derivation in pre-order: the first one is applied to its own
left-hand side, whatever symbol that is, and the others complete what it leaves. -/
def Complete (isTerminal : Symbol → Bool) : Derivation → Prop
  | [] => False
  | rule :: rest => Completes isTerminal rest rule.rhs

instance : (d : Derivation) → Decidable (Complete isTerminal d)
  | [] => inferInstanceAs (Decidable False)
  | rule :: rest => inferInstanceAs (Decidable (Completes isTerminal rest rule.rhs))

/-- Completing symbols begins with the first rule, applied to the leftmost variable. -/
theorem completes_cons_iff :
    Completes isTerminal (rule :: d) form ↔
      ∃ form', rule.applyLeftmost isTerminal form = some form' ∧ Completes isTerminal d form' := by
  rw [Completes, replay]
  cases rule.applyLeftmost isTerminal form with
  | none => simp
  | some form' => simp [Completes]

/-- A rule is applied exactly when the leftmost variable is its left-hand side. It leaves the
variables of its right-hand side in the place of that one. -/
theorem applyLeftmost_eq_some_iff {form' : List Symbol} :
    rule.applyLeftmost isTerminal form = some form' ↔
      ∃ u rest, (∀ a ∈ u, isTerminal a = true) ∧ isTerminal rule.lhs = false ∧
        form = u ++ rule.lhs :: rest ∧ form' = u ++ (rule.rhs ++ rest) := by
  refine ⟨Grammar.exists_of_applyLeftmost, ?_⟩
  rintro ⟨u, rest, hu, hv, rfl, rfl⟩
  rw [Grammar.applyLeftmost_append rule hu, Rule.applyLeftmost, if_neg (by simp [hv]), if_pos rfl]
  rfl

/-- The rules fit the pending variables exactly when they complete the symbols that have them. -/
theorem misfitFrom_eq_none_iff (position : Nat) :
    misfitFrom isTerminal position (form.filter fun s => !isTerminal s) d = none ↔
      Completes isTerminal d form := by
  induction d generalizing form position with
  | nil =>
    have hall : (form.filter fun s => !isTerminal s) = [] ↔ Completes isTerminal [] form := by
      simp [Completes, replay]
    rw [← hall]
    cases form.filter fun s => !isTerminal s with
    | nil => simp [misfitFrom]
    | cons s pending => simp [misfitFrom]
  | cons rule d ih =>
    rw [completes_cons_iff]
    constructor
    · intro h
      cases hpending : form.filter fun s => !isTerminal s with
      | nil => simp [hpending, misfitFrom] at h
      | cons s pending =>
        rw [hpending, misfitFrom] at h
        split at h
        · next hlhs =>
          -- What stands before the first pending variable are terminals.
          obtain ⟨u, rest, rfl, hu, hs, rfl⟩ := List.filter_eq_cons_iff.1 hpending
          refine ⟨u ++ (rule.rhs ++ rest),
            applyLeftmost_eq_some_iff.2 ⟨u, rest, ?_, ?_, ?_, rfl⟩, ?_⟩
          · simpa using hu
          · simpa [hlhs] using hs
          · rw [hlhs]
          · rw [← ih (position + 1), List.filter_append, List.filter_append,
              List.filter_eq_nil_iff.2 hu, List.nil_append]
            exact h
        · exact absurd h (by simp)
    · rintro ⟨form', happly, hd⟩
      obtain ⟨u, rest, hu, hv, rfl, rfl⟩ := applyLeftmost_eq_some_iff.1 happly
      have hnone : (u.filter fun s => !isTerminal s) = [] := by
        simpa using hu
      rw [← ih (position + 1), List.filter_append, List.filter_append, hnone] at hd
      rw [List.filter_append, hnone, List.nil_append, List.filter_cons_of_pos (by simp [hv]),
        misfitFrom, if_pos rfl]
      exact hd

/-- There is no misfit exactly in a complete list of rules. -/
theorem misfit?_eq_none_iff : misfit? isTerminal d = none ↔ Complete isTerminal d := by
  cases d with
  | nil => simp [misfit?, Complete]
  | cons rule d =>
    rw [misfit?, misfitFrom, if_pos rfl, List.append_nil, Rule.variableList, misfitFrom_eq_none_iff]
    rfl

/-- A list of rules, the first one for a variable, is complete exactly when it completes that
variable. -/
theorem complete_cons_iff (hv : isTerminal rule.lhs = false) :
    Complete isTerminal (rule :: d) ↔ Completes isTerminal (rule :: d) [rule.lhs] := by
  have happly : rule.applyLeftmost isTerminal [rule.lhs] = some rule.rhs := by
    rw [Rule.applyLeftmost, if_neg (by simp [hv]), if_pos rfl, List.append_nil]
  rw [completes_cons_iff, happly, Complete]
  simp

/-- A complete list of rules of a grammar, the first one for a variable, is a derivation of some
word from that variable. -/
theorem Complete.exists_derives {g : Grammar} (h : Complete g.isTerminal (rule :: d))
    (hr : ∀ r ∈ rule :: d, r ∈ g.rules) (hv : g.isTerminal rule.lhs = false) :
    ∃ word, g.Derives (rule :: d) [rule.lhs] word := by
  obtain ⟨word, hreplay, hword⟩ := h
  have hd := Grammar.derives_of_replay (fun r hm => hr r (List.mem_cons_of_mem _ hm)) hreplay hword
  exact ⟨word, (Grammar.derives_variable_iff hv).2 ⟨rule, hr rule (by simp), rfl, d, rfl, hd⟩⟩

end Derivation

/-- A derivation from a variable is complete. -/
theorem Grammar.Derives.complete {g : Grammar} {s : Symbol} {word : List Symbol}
    (h : g.Derives d [s] word) (hs : g.isTerminal s = false) :
    Derivation.Complete g.isTerminal d := by
  obtain ⟨rule, -, -, e, rfl, he⟩ := (derives_variable_iff hs).1 h
  have hreplay := he.replay_append []
  rw [List.append_nil, List.append_nil] at hreplay
  exact ⟨word, hreplay, he.terminals⟩

end ContextFree
