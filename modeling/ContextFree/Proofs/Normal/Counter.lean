import ContextFree.Proofs.Normal.Subset
import Mathlib.Data.List.Count
import Mathlib.Data.Option.Basic

/-!
# Counting in place

The subsets can also be counted in place: a call carries over the ones at the front, turns them back
to zeros, and turns the first zero to a one (`Subset.advance`). Where there is no zero, the call
returns nothing and all digits are zeros again, so the counter goes round, and the digits that a
call leaves are always those of its number (`Subset.advance_ofNumber`). What calls in a row return
follows from this (`Subset.results_ofNumber`). From the empty subset on, they return the subsets
that a fold goes through, each of them once, and then nothing (`Subset.results_empty`).
-/

namespace ContextFree.Subset

/-! ## A call -/

/-- Goes through the digits that are left, with those done so far in front of them: a one is turned
to a zero, and the first zero is turned to a one. The result is what a call returns, and the digits
that it leaves. -/
def carry (done : Subset) : Subset → Option Subset × Subset
  | [] => (none, done)
  | false :: digits => (some (done ++ true :: digits), done ++ true :: digits)
  | true :: digits => carry (done ++ [false]) digits

/-- A call of the counter: what it returns, and the digits that it leaves. -/
def advance (s : Subset) : Option Subset × Subset := carry [] s

/-- The digits done are in front of the next subset of those left, or of zeros only. -/
theorem carry_eq (done s : Subset) :
    carry done s = ((next? s).map (done ++ ·), done ++ (next? s).getD (empty s.length)) := by
  induction s generalizing done with
  | nil => exact congrArg (Prod.mk none) (List.append_nil done).symm
  | cons digit digits ih =>
    cases digit with
    | false => rfl
    | true =>
      rw [carry, ih, next?]
      cases next? digits with
      | none => simp [empty, List.replicate_succ]
      | some next => simp

/-- A call returns the next subset and leaves its digits. After the full subset it returns nothing
and leaves the empty one. -/
theorem advance_eq (s : Subset) : advance s = (next? s, (next? s).getD (empty s.length)) := by
  rw [advance, carry_eq]
  cases next? s <;> rfl

/-- A call leaves the digits of the next number, and returns them unless they are all zeros. -/
theorem advance_ofNumber (n m : Nat) :
    advance (ofNumber n m) =
      (if (m + 1) % 2 ^ n = 0 then none else some (ofNumber n (m + 1)), ofNumber n (m + 1)) := by
  rw [advance_eq, next?_ofNumber, length_ofNumber]
  by_cases h : (m + 1) % 2 ^ n = 0
  · rw [if_pos h, Option.getD_none, ofNumber_eq_empty h]
  · rw [if_neg h, Option.getD_some]

/-! ## Calls in a row -/

/-- What the given number of calls return, one after the other. -/
def results : (count : Nat) → Subset → List (Option Subset)
  | 0, _ => []
  | count + 1, s => (advance s).1 :: results count (advance s).2

/-- Calls return the digits of the next numbers, but for multiples of `2 ^ n`. -/
theorem results_ofNumber (count n m : Nat) :
    results count (ofNumber n m) = (List.range' (m + 1) count).map fun k =>
      if k % 2 ^ n = 0 then none else some (ofNumber n k) := by
  induction count generalizing m with
  | zero => rfl
  | succ count ih => rw [results, advance_ofNumber, ih, List.range'_succ, List.map_cons]

/-- From the empty subset on, calls return the subsets visited, and then nothing. -/
theorem results_empty (n : Nat) :
    results (2 ^ n) (empty n) = (visited n).map some ++ [none] := by
  have hpos : 0 < 2 ^ n := Nat.two_pow_pos n
  have hsucc : 2 ^ n - 1 + 1 = 2 ^ n := Nat.sub_add_cancel hpos
  have hrange : List.range' 1 (2 ^ n - 1 + 1) = List.range' 1 (2 ^ n - 1) ++ [1 + (2 ^ n - 1)] :=
    List.range'_1_concat
  rw [Nat.add_comm 1, hsucc] at hrange
  -- Only the last of these numbers has too many digits.
  have hdigits : ∀ k ∈ List.range' 1 (2 ^ n - 1),
      (if k % 2 ^ n = 0 then none else some (ofNumber n k)) = some (ofNumber n k) := by
    intro k hk
    obtain ⟨hone, hlt⟩ := List.mem_range'_1.1 hk
    rw [Nat.mod_eq_of_lt (by omega), if_neg (by omega)]
  rw [← ofNumber_eq_empty (Nat.zero_mod (2 ^ n)), results_ofNumber, Nat.zero_add, hrange,
    List.map_append, List.map_congr_left hdigits, List.map_singleton, Nat.mod_self, if_pos rfl,
    visited_eq, List.map_map]
  rfl

/-- A counter of `n` places goes through the subsets as follows. From the empty subset on, the first
`2 ^ n - 1` calls return the digits of the numbers from one on, in order, where the first place has
the lowest digit, and the call after these returns nothing. So until then each subset of the places
is returned once, but for the empty one, which is not returned at all. These are also the subsets
that a fold goes through, in the same order. -/
theorem advance_exact (n : Nat) :
    results (2 ^ n) (empty n) =
      ((List.range' 1 (2 ^ n - 1)).map fun m => some (ofNumber n m)) ++ [none] ∧
    (∀ s : Subset, (results (2 ^ n) (empty n)).count (some s) =
      if s.length = n ∧ s ≠ empty n then 1 else 0) ∧
    ∀ (α : Type) (f : α → Subset → α) (state : α),
      fold n f state = ((List.range' 1 (2 ^ n - 1)).map (ofNumber n)).foldl f state := by
  refine ⟨?_, fun s => ?_, fun α f state => ?_⟩
  · rw [results_empty, visited_eq, List.map_map]
    rfl
  · rw [results_empty, List.count_append, List.count_map_of_injective _ _ (Option.some_injective _)]
    have hnone : [(none : Option Subset)].count (some s) = 0 := rfl
    rw [hnone, (nodup_visited n).count]
    simp only [mem_visited_iff, Nat.add_zero]
  · rw [fold_eq_foldl, visited_eq]

/-- With two places, the fourth call returns nothing, and the fifth one starts over. -/
example : results 5 (empty 2) =
    [some [true, false], some [false, true], some [true, true], none, some [true, false]] := by
  decide

end ContextFree.Subset
