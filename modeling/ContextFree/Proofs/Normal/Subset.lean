import ContextFree.Normal.Subset
import Mathlib.Algebra.Group.Nat.Defs
import Mathlib.Data.List.Nodup

/-!
# Counting goes through all subsets

A subset stands for a number, its digits being binary with the first place as the lowest
(`Subset.number`), and has the digits of that number (`Subset.ofNumber_number`). The next subset
stands for the next number, so going on from the empty subset comes by every subset that is not
empty (`Subset.mem_visited_iff`), in the order of the numbers (`Subset.visited_eq`), and a fold over
subsets is one over the list of those visited (`Subset.fold_eq_foldl`). The members at the places of
a subset are those with a one for their digit in its number (`Subset.select_eq_filter`).
-/

namespace ContextFree.Subset

variable {s t : Subset} {n m : Nat}

/-- The number that a subset stands for, with the first place as the lowest digit. -/
def number : Subset → Nat
  | [] => 0
  | digit :: digits => digit.toNat + 2 * number digits

/-- A subset of `n` places stands for a number below `2 ^ n`. -/
theorem number_lt (s : Subset) : s.number < 2 ^ s.length := by
  induction s with
  | nil => exact Nat.one_pos
  | cons digit digits ih =>
    have hdigit : digit.toNat ≤ 1 := Bool.toNat_le digit
    rw [number, List.length_cons, Nat.pow_succ]
    omega

/-- Subsets of equally many places are told apart by their numbers. -/
theorem eq_of_number_eq (hl : s.length = t.length) (h : s.number = t.number) : s = t := by
  induction s generalizing t with
  | nil => exact (List.length_eq_zero_iff.1 hl.symm).symm
  | cons digit digits ih =>
    cases t with
    | nil => exact absurd hl (by simp)
    | cons digit' digits' =>
      rw [number, number] at h
      have hdigit : digit.toNat ≤ 1 := Bool.toNat_le digit
      have hdigit' : digit'.toNat ≤ 1 := Bool.toNat_le digit'
      have hlow : digit.toNat = digit'.toNat := by omega
      have hsame : digit = digit' := by revert hlow; cases digit <;> cases digit' <;> decide
      have hrest : digits = digits' := ih (by simpa using hl) (by omega)
      rw [hsame, hrest]

/-- The next subset has as many places and stands for the next number. -/
theorem next?_eq_some (h : next? s = some t) : t.length = s.length ∧ t.number = s.number + 1 := by
  induction s generalizing t with
  | nil => exact absurd h (by simp [next?])
  | cons digit digits ih =>
    cases digit with
    | false =>
      obtain rfl := Option.some.inj h
      refine ⟨rfl, ?_⟩
      rw [number, number, Bool.toNat_true, Bool.toNat_false]
      omega
    | true =>
      -- The lowest digit is carried over to the next one.
      obtain ⟨digits', hnext, rfl⟩ := Option.map_eq_some_iff.1 h
      obtain ⟨hlength, hnumber⟩ := ih hnext
      refine ⟨by rw [List.length_cons, hlength, List.length_cons], ?_⟩
      rw [number, number, hnumber, Bool.toNat_true, Bool.toNat_false]
      omega

/-- Only the full subset, which stands for the last number, has no next one. -/
theorem next?_eq_none (h : next? s = none) : s.number + 1 = 2 ^ s.length := by
  induction s with
  | nil => rfl
  | cons digit digits ih =>
    cases digit with
    | false => exact absurd h (by simp [next?])
    | true =>
      have hnumber := ih (Option.map_eq_none_iff.1 h)
      rw [number, List.length_cons, Nat.pow_succ, Bool.toNat_true]
      omega

/-! ## The digits of a number -/

/-- The digits of a number at `n` places, with the first place as the lowest. -/
def ofNumber (n m : Nat) : Subset := (List.range n).map m.testBit

theorem length_ofNumber (n m : Nat) : (ofNumber n m).length = n := by
  rw [ofNumber, List.length_map, List.length_range]

/-- The first digit tells odd from even, and the other ones are the digits of half the number. -/
theorem ofNumber_succ (n m : Nat) :
    ofNumber (n + 1) m = m.testBit 0 :: ofNumber n (m / 2) := by
  rw [ofNumber, List.range_succ_eq_map, List.map_cons, List.map_map]
  congr 1
  refine List.map_congr_left fun i _ => ?_
  exact Nat.testBit_add_one m i

/-- The places hold the number up to a multiple of `2 ^ n`. -/
theorem number_ofNumber (n m : Nat) : (ofNumber n m).number = m % 2 ^ n := by
  induction n generalizing m with
  | zero => exact (Nat.mod_one m).symm
  | succ n ih =>
    have hlow : (m.testBit 0).toNat = m % 2 := by rw [Nat.toNat_testBit, Nat.pow_zero, Nat.div_one]
    rw [ofNumber_succ, number, ih, hlow, Nat.pow_succ', Nat.mod_mul]

/-- The digits of the number of a subset are those of the subset. -/
theorem ofNumber_number (s : Subset) : ofNumber s.length s.number = s := by
  refine eq_of_number_eq (length_ofNumber _ _) ?_
  rw [number_ofNumber, Nat.mod_eq_of_lt s.number_lt]

/-- The next subset has the digits of the next number, unless these are too many. -/
theorem next?_ofNumber (n m : Nat) :
    next? (ofNumber n m) = if (m + 1) % 2 ^ n = 0 then none else some (ofNumber n (m + 1)) := by
  have hmod : (m + 1) % 2 ^ n = ((ofNumber n m).number + 1) % 2 ^ n := by
    rw [number_ofNumber, Nat.mod_add_mod]
  cases hnext : next? (ofNumber n m) with
  | none =>
    have hlast := next?_eq_none hnext
    rw [length_ofNumber] at hlast
    rw [hmod, hlast, Nat.mod_self, if_pos rfl]
  | some next =>
    obtain ⟨hlength, hnumber⟩ := next?_eq_some hnext
    have hlt := number_lt next
    rw [hlength, length_ofNumber, hnumber] at hlt
    rw [Nat.mod_eq_of_lt hlt] at hmod
    have heq : next = ofNumber n (m + 1) := by
      refine eq_of_number_eq (hlength.trans ?_) ?_
      · rw [length_ofNumber, length_ofNumber]
      · rw [hnumber, number_ofNumber n (m + 1), hmod]
    rw [hmod, if_neg (Nat.succ_ne_zero _), heq]

/-! ## The subsets visited -/

/-- The subsets after the given one, at most `count` of them. -/
def after : (count : Nat) → Subset → List Subset
  | 0, _ => []
  | count + 1, subset =>
    match next? subset with
    | none => []
    | some next => next :: after count next

/-- The subsets after the given one have the digits of the numbers after its own, in order, up to
the last number of the places. -/
theorem after_ofNumber {count : Nat} (h : m < 2 ^ n) :
    after count (ofNumber n m) =
      (List.range' (m + 1) (min count (2 ^ n - 1 - m))).map (ofNumber n) := by
  induction count generalizing m with
  | zero =>
    rw [Nat.zero_min]
    rfl
  | succ count ih =>
    rw [after, next?_ofNumber]
    by_cases hlast : m + 1 = 2 ^ n
    · have hzero : 2 ^ n - 1 - m = 0 := by omega
      rw [hlast, Nat.mod_self, if_pos rfl, hzero, Nat.min_zero]
      rfl
    · have hlt : m + 1 < 2 ^ n := by omega
      have hcount : min (count + 1) (2 ^ n - 1 - m) = min count (2 ^ n - 1 - (m + 1)) + 1 := by
        omega
      rw [Nat.mod_eq_of_lt hlt, if_neg (Nat.succ_ne_zero m), hcount, List.range'_succ,
        List.map_cons]
      exact congrArg _ (ih hlt)

/-- The subsets of `n` places that a fold goes through, in order. -/
def visited (n : Nat) : List Subset := after (2 ^ n) (empty n)

theorem length_empty (n : Nat) : (empty n).length = n := List.length_replicate

theorem number_empty (n : Nat) : (empty n).number = 0 := by
  induction n with
  | zero => rfl
  | succ n ih =>
    have hcons : empty (n + 1) = false :: empty n := rfl
    rw [hcons, number, ih, Bool.toNat_false]

/-- The digits of a multiple of `2 ^ n` are those of the empty subset. -/
theorem ofNumber_eq_empty (h : m % 2 ^ n = 0) : ofNumber n m = empty n := by
  refine eq_of_number_eq ?_ ?_
  · rw [length_ofNumber, length_empty]
  · rw [number_ofNumber, h, number_empty]

/-- The subsets visited have the digits of the numbers from one on. -/
theorem visited_eq (n : Nat) : visited n = (List.range' 1 (2 ^ n - 1)).map (ofNumber n) := by
  have hpos : 0 < 2 ^ n := Nat.two_pow_pos n
  have hmin : min (2 ^ n) (2 ^ n - 1 - 0) = 2 ^ n - 1 := by omega
  rw [visited, ← ofNumber_eq_empty (Nat.zero_mod (2 ^ n)), after_ofNumber hpos, hmin]

/-- The subsets visited stand for the numbers from one on, in order. -/
theorem map_number_visited (n : Nat) : (visited n).map number = List.range' 1 (2 ^ n - 1) := by
  have hnumber : ∀ k ∈ List.range' 1 (2 ^ n - 1), (ofNumber n k).number = k := by
    intro k hk
    obtain ⟨hone, hlt⟩ := List.mem_range'_1.1 hk
    rw [number_ofNumber, Nat.mod_eq_of_lt (by omega)]
  rw [visited_eq, List.map_map]
  exact (List.map_congr_left hnumber).trans (List.map_id' _)

/-- No subset is visited twice. -/
theorem nodup_visited (n : Nat) : (visited n).Nodup := by
  refine List.Nodup.of_map number ?_
  rw [map_number_visited]
  exact List.nodup_range'

/-- Every subset but the empty one is visited. -/
theorem mem_visited_iff : s ∈ visited n ↔ s.length = n ∧ s ≠ empty n := by
  rw [visited_eq, List.mem_map]
  constructor
  · rintro ⟨k, hk, rfl⟩
    obtain ⟨hone, hlt⟩ := List.mem_range'_1.1 hk
    refine ⟨length_ofNumber n k, fun hempty => ?_⟩
    have hnumber : k % 2 ^ n = 0 := by rw [← number_ofNumber, hempty, number_empty]
    rw [Nat.mod_eq_of_lt (by omega)] at hnumber
    omega
  · rintro ⟨rfl, hne⟩
    have hlt := s.number_lt
    have hpos : s.number ≠ 0 := fun hzero =>
      hne (eq_of_number_eq (length_empty _).symm (hzero.trans (number_empty _).symm))
    exact ⟨s.number, List.mem_range'_1.2 ⟨by omega, by omega⟩, s.ofNumber_number⟩

/-- Going through subsets is folding over the list of them. -/
theorem foldAfter_eq_foldl {α : Type} (f : α → Subset → α) (count : Nat) (s : Subset) (state : α) :
    foldAfter f count s state = (after count s).foldl f state := by
  induction count generalizing s state with
  | zero => rfl
  | succ count ih =>
    rw [foldAfter, after]
    cases next? s with
    | none => rfl
    | some next => exact ih next (f state next)

theorem fold_eq_foldl {α : Type} (n : Nat) (f : α → Subset → α) (state : α) :
    fold n f state = (visited n).foldl f state :=
  foldAfter_eq_foldl f (2 ^ n) (empty n) state

/-! ## Members at the places of a subset -/

theorem select_true {α : Type} (s : Subset) (member : α) (members : List α) :
    select (true :: s) (member :: members) = member :: s.select members := rfl

theorem select_false {α : Type} (s : Subset) (member : α) (members : List α) :
    select (false :: s) (member :: members) = s.select members := rfl

/-- The empty subset selects nothing. -/
theorem select_empty {α : Type} (members : List α) :
    (empty members.length).select members = [] := by
  induction members with
  | nil => rfl
  | cons member members ih => exact ih

/-- The members at the places of a subset are some of the members, in order. -/
theorem select_sublist {α : Type} (s : Subset) (members : List α) :
    (s.select members).Sublist members := by
  induction members generalizing s with
  | nil => simp [select]
  | cons member members ih =>
    cases s with
    | nil => simp [select]
    | cons digit digits =>
      cases digit with
      | false => exact (ih digits).cons _
      | true => exact (ih digits).cons_cons _

/-- The first place has the lowest digit of the number. -/
theorem testBit_number_zero (digit : Bool) (digits : Subset) :
    (number (digit :: digits)).testBit 0 = digit := by
  rw [number]
  cases digit with
  | false => simp
  | true => simp [Nat.add_mod]

/-- The other places have the digits of half the number. -/
theorem testBit_number_succ (digit : Bool) (digits : Subset) (j : Nat) :
    (number (digit :: digits)).testBit (j + 1) = (number digits).testBit j := by
  have hdigit : digit.toNat ≤ 1 := Bool.toNat_le digit
  have hhalf : number (digit :: digits) / 2 = number digits := by
    rw [number]
    omega
  rw [Nat.testBit_add_one, hhalf]

/-- The members at the places of a subset are those whose digits in its number are ones. -/
theorem select_eq_filter {α : Type} (s : Subset) (members : List α) :
    s.select members = (members.zipIdx.filter fun (_, j) => s.number.testBit j).map (·.1) := by
  induction members generalizing s with
  | nil => simp [select]
  | cons member members ih =>
    cases s with
    | nil => simp [select, number]
    | cons digit digits =>
      have hrest : ((members.zipIdx 1).filter fun (_, j) =>
            (number (digit :: digits)).testBit j).map (·.1) = select digits members := by
        rw [ih, List.zipIdx_succ, List.filter_map, List.map_map]
        simp only [Function.comp_def, testBit_number_succ]
      have hlow := testBit_number_zero digit digits
      rw [List.zipIdx_cons]
      cases digit with
      | false =>
        rw [List.filter_cons_of_neg (by exact Bool.eq_false_iff.1 hlow), select_false]
        exact hrest.symm
      | true =>
        rw [List.filter_cons_of_pos (by exact hlow), List.map_cons, select_true]
        exact congrArg _ hrest.symm

end ContextFree.Subset
