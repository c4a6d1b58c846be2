/-!
# Subsets in counting order

A subset of finitely many places is a list of digits, one for each place. Counting in binary with
the first place as the lowest digit goes through all subsets; it starts from the empty subset, which
is not among those visited, and ends with the full one.
-/

namespace ContextFree

/-- Which of finitely many places belong to a subset. -/
abbrev Subset := List Bool

namespace Subset

/-- The empty subset of `n` places. -/
def empty (n : Nat) : Subset := List.replicate n false

/-- The next subset in counting order; the full subset has none. -/
def next? : Subset → Option Subset
  | [] => none
  | false :: digits => some (true :: digits)
  | true :: digits => (next? digits).map (false :: ·)

/-- Goes through at most `count` subsets after the given one, in order. -/
def foldAfter {α : Type} (f : α → Subset → α) : (count : Nat) → Subset → α → α
  | 0, _, state => state
  | count + 1, subset, state =>
    match next? subset with
    | none => state
    | some next => foldAfter f count next (f state next)

/-- Goes through all subsets of `n` places but the empty one, in counting order. There are `2 ^ n`
subsets in all. -/
def fold {α : Type} (n : Nat) (f : α → Subset → α) (state : α) : α :=
  foldAfter f (Nat.pow 2 n) (empty n) state

/-- The members of a list at the places of a subset. -/
def select {α : Type} (subset : Subset) (members : List α) : List α :=
  (members.zip subset).filterMap fun (member, isIn) => if isIn then some member else none

end Subset

end ContextFree
