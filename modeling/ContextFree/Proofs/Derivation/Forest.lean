import ContextFree.Derivation.Forest
import ContextFree.Proofs.Derivation.Complete

/-!
# The forest of a derivation

A derivation from a list of symbols has one tree for each variable among them. Building the forest
of its rules puts them together in the way they were applied: the forest of two derivations one
after the other is the one forest followed by the other (`Derives.length_and_append`), and below a
rule stands exactly the forest of the derivation from its right-hand side (`Derives.ofRules_cons`).
The tree can be built of a complete list of rules and of no other (`Forest.ofDerivation_eq_ok_iff`).
The nodes of a forest are numbered in pre-order by the rules it was made of
(`Forest.entries_ofRules`), and where the rules fit, there is below each node one tree for each
variable on the right-hand side of its rule (`Forest.branches_ofRules`).
-/

namespace ContextFree

namespace Forest

/-- The trees of the first forest followed by those of the second. -/
def append : Forest → Forest → Forest
  | nil, second => second
  | cons index rule children siblings, second => cons index rule children (siblings.append second)

/-- Dividing two forests where the first one ends gives them back. -/
theorem splitAt_append (first second : Forest) :
    (first.append second).splitAt first.length = (first, second) := by
  induction first with
  | nil => rfl
  | cons index rule children siblings _ ih => rw [append, length, splitAt, ih]

/-- The tree of a list of rules can be built exactly when the list is complete. -/
theorem ofDerivation_eq_ok_iff {isTerminal : Symbol → Bool} {d : Derivation} {forest : Forest} :
    ofDerivation isTerminal d = .ok forest ↔
      Derivation.Complete isTerminal d ∧ forest = ofRules isTerminal 0 d := by
  rw [ofDerivation, ← Derivation.misfit?_eq_none_iff]
  cases Derivation.misfit? isTerminal d with
  | none => simp [eq_comm]
  | some position => simp

/-- A rule takes the trees of the rules next to it as its own when there is one for each variable on
its right-hand side, and the rules that follow make trees of their own. -/
theorem ofRules_cons_append {isTerminal : Symbol → Bool} {index : Nat} {rule : Rule}
    {d e : Derivation}
    (hlen : (ofRules isTerminal (index + 1) d).length = (rule.variableList isTerminal).length)
    (happ : ofRules isTerminal (index + 1) (d ++ e) =
      (ofRules isTerminal (index + 1) d).append (ofRules isTerminal (index + 1 + d.length) e)) :
    ofRules isTerminal index (rule :: (d ++ e)) =
      cons index rule (ofRules isTerminal (index + 1) d)
        (ofRules isTerminal (index + 1 + d.length) e) := by
  rw [ofRules, happ, ← hlen, splitAt_append]

end Forest

namespace Grammar

variable {g : Grammar} {d e : Derivation} {form rest word part : List Symbol}

/-- The variables among the symbols, in order. -/
def variablesIn (g : Grammar) (form : List Symbol) : List Symbol :=
  form.filter fun s => !g.isTerminal s

theorem variablesIn_cons_terminal {a : Symbol} (ha : g.isTerminal a = true) :
    g.variablesIn (a :: form) = g.variablesIn form := by
  rw [variablesIn, List.filter_cons_of_neg (by simp [ha])]
  rfl

theorem variablesIn_cons_variable {s : Symbol} (hs : g.isTerminal s = false) :
    g.variablesIn (s :: form) = s :: g.variablesIn form := by
  rw [variablesIn, List.filter_cons_of_pos (by simp [hs])]
  rfl

/-- There is one tree for each variable, and rules that follow a derivation make trees of their
own. -/
theorem Derives.length_and_append (h : g.Derives d form word) (index : Nat) (e : Derivation) :
    (Forest.ofRules g.isTerminal index d).length = (g.variablesIn form).length ∧
      Forest.ofRules g.isTerminal index (d ++ e) =
        (Forest.ofRules g.isTerminal index d).append
          (Forest.ofRules g.isTerminal (index + d.length) e) := by
  induction h generalizing index e with
  | nil => exact ⟨rfl, rfl⟩
  | ofTerminal ha _ ih =>
    rw [variablesIn_cons_terminal ha]
    exact ih index e
  | @ofRule rule d₁ d₂ rest part word _ hv _ _ ihHead ihTail =>
    -- The trees below the rule are those of its right-hand side, however the rules go on.
    have hsplit : ∀ e', Forest.ofRules g.isTerminal index (rule :: (d₁ ++ e')) =
        .cons index rule (Forest.ofRules g.isTerminal (index + 1) d₁)
          (Forest.ofRules g.isTerminal (index + 1 + d₁.length) e') := by
      intro e'
      have ⟨hlen, happ⟩ := ihHead (index + 1) e'
      exact Forest.ofRules_cons_append hlen happ
    rw [List.cons_append, List.append_assoc, hsplit, hsplit, (ihTail _ e).2]
    refine ⟨?_, ?_⟩
    · rw [Forest.length, (ihTail _ e).1, variablesIn_cons_variable hv, List.length_cons]
    · rw [Forest.append, List.length_cons, List.length_append]
      congr 3
      omega

/-- Below a rule stands the forest of the derivation from its right-hand side. -/
theorem Derives.ofRules_cons {rule : Rule} (h : g.Derives d rule.rhs part) (index : Nat)
    (e : Derivation) :
    Forest.ofRules g.isTerminal index (rule :: (d ++ e)) =
      .cons index rule (Forest.ofRules g.isTerminal (index + 1) d)
        (Forest.ofRules g.isTerminal (index + 1 + d.length) e) := by
  have ⟨hlen, happ⟩ := h.length_and_append (index + 1) e
  exact Forest.ofRules_cons_append hlen happ

/-- The tree of a derivation from a variable can be built. -/
theorem Derives.ofDerivation_eq_ok {s : Symbol} (h : g.Derives d [s] word)
    (hs : g.isTerminal s = false) :
    Forest.ofDerivation g.isTerminal d = .ok (Forest.ofRules g.isTerminal 0 d) :=
  Forest.ofDerivation_eq_ok_iff.2 ⟨h.complete hs, rfl⟩

end Grammar

/-! ## The shape of a forest -/

namespace Forest

variable {isTerminal : Symbol → Bool} {index position : Nat} {pending : List Symbol}
  {d : Derivation}

/-- The rules at the roots, with their places. -/
def tops : Forest → List (Rule × Nat)
  | nil => []
  | cons index rule _ siblings => (rule, index) :: siblings.tops

/-- What is found at the nodes, visited in pre-order. At each of them there are its place, its rule
and the trees below it. -/
def preorder {α : Type} (visit : Nat → Rule → Forest → α) : Forest → List α
  | nil => []
  | cons index rule children siblings =>
    visit index rule children :: (children.preorder visit ++ siblings.preorder visit)

/-- The rules of all nodes in pre-order, with their places. -/
def entries (forest : Forest) : List (Rule × Nat) :=
  forest.preorder fun index rule _ => (rule, index)

/-- Below each node there are trees for the variables on the right-hand side of its rule, one for
each of them and in the same order. -/
def Branches (isTerminal : Symbol → Bool) : Forest → Prop
  | nil => True
  | cons _ rule children siblings =>
    children.tops.map (·.1.lhs) = rule.variableList isTerminal ∧
      children.Branches isTerminal ∧ siblings.Branches isTerminal

theorem length_tops (forest : Forest) : forest.tops.length = forest.length := by
  induction forest with
  | nil => rfl
  | cons index rule children siblings _ ih => rw [tops, List.length_cons, ih, length]

/-- Dividing a forest divides its roots. -/
theorem tops_splitAt (n : Nat) (forest : Forest) :
    (forest.splitAt n).1.tops = forest.tops.take n ∧
      (forest.splitAt n).2.tops = forest.tops.drop n := by
  induction n generalizing forest with
  | zero => exact ⟨rfl, rfl⟩
  | succ n ih =>
    cases forest with
    | nil => exact ⟨rfl, rfl⟩
    | cons index rule children siblings => simp [splitAt, tops, ih]

/-- Dividing a forest loses no node and keeps their order. -/
theorem preorder_splitAt {α : Type} (visit : Nat → Rule → Forest → α) (n : Nat) (forest : Forest) :
    (forest.splitAt n).1.preorder visit ++ (forest.splitAt n).2.preorder visit =
      forest.preorder visit := by
  induction n generalizing forest with
  | zero => rfl
  | succ n ih =>
    cases forest with
    | nil => rfl
    | cons index rule children siblings => simp [splitAt, preorder, ih]

/-- In pre-order, the nodes of a forest have the rules it was made of, numbered one after the other.
-/
theorem entries_ofRules (isTerminal : Symbol → Bool) (index : Nat) (d : Derivation) :
    (ofRules isTerminal index d).entries = d.zipIdx index := by
  induction d generalizing index with
  | nil => rfl
  | cons rule d ih =>
    rw [entries, ofRules, preorder, preorder_splitAt, List.zipIdx_cons, ← ih]
    rfl

theorem branches_splitAt {forest : Forest} (h : forest.Branches isTerminal) (n : Nat) :
    (forest.splitAt n).1.Branches isTerminal ∧ (forest.splitAt n).2.Branches isTerminal := by
  induction n generalizing forest with
  | zero => exact ⟨trivial, h⟩
  | succ n ih =>
    cases forest with
    | nil => exact ⟨trivial, trivial⟩
    | cons index rule children siblings =>
      obtain ⟨hroots, hchildren, hsiblings⟩ := h
      exact ⟨⟨hroots, hchildren, (ih hsiblings).1⟩, (ih hsiblings).2⟩

/-- Rules that fit the pending variables make one tree for each of these, and so does every rule for
its own variables. -/
theorem branches_ofRules (h : Derivation.misfitFrom isTerminal position pending d = none)
    (index : Nat) :
    (ofRules isTerminal index d).tops.map (·.1.lhs) = pending ∧
      (ofRules isTerminal index d).Branches isTerminal := by
  induction d generalizing position pending index with
  | nil =>
    cases pending with
    | nil => exact ⟨rfl, trivial⟩
    | cons s pending => exact absurd h (by simp [Derivation.misfitFrom])
  | cons rule d ih =>
    cases pending with
    | nil => exact absurd h (by simp [Derivation.misfitFrom])
    | cons s pending =>
      rw [Derivation.misfitFrom] at h
      split at h
      · next hlhs =>
        -- The trees of the other rules are for the rule's own variables first.
        obtain ⟨htops, hbranches⟩ := ih h (index + 1)
        obtain ⟨hbelow, hbeside⟩ := branches_splitAt hbranches (rule.variableList isTerminal).length
        have hsplit := tops_splitAt (rule.variableList isTerminal).length
          (ofRules isTerminal (index + 1) d)
        rw [ofRules, tops, List.map_cons, hlhs]
        refine ⟨?_, ?_, hbelow, hbeside⟩
        · rw [hsplit.2, List.map_drop, htops, List.drop_left]
        · rw [hsplit.1, List.map_take, htops, List.take_left]
      · exact absurd h (by simp)

end Forest

end ContextFree
