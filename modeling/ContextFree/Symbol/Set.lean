import ContextFree.Symbol

/-!
# Sets of symbols

A set of symbols keeps its members in ascending order, and beside them its width: the number of
symbols it covers, whether they are members or not. Inserting a symbol beyond the width widens the
set to cover it; erasing never narrows it. Two sets are equal when they cover the same symbols and
have the same members (`SymbolSet.ext_contains`), so the width is part of what a set is.
-/

namespace ContextFree

/-- A symbol put in its place in an ascending list, unless it is there already. -/
def Symbol.insertSorted (s : Symbol) : List Symbol → List Symbol
  | [] => [s]
  | t :: rest => if s.id < t.id then s :: t :: rest
    else if s.id = t.id then t :: rest
    else t :: insertSorted s rest

/-- Sorted insertion adds exactly the one symbol. -/
@[simp] theorem Symbol.mem_insertSorted {s x : Symbol} {l : List Symbol} :
    x ∈ s.insertSorted l ↔ x = s ∨ x ∈ l := by
  induction l with
  | nil => simp [insertSorted]
  | cons t rest ih =>
    unfold insertSorted
    split
    · simp
    · split
      · next h => have : s = t := Symbol.ext h; subst this; simp
      · simp [ih, or_left_comm]

/-- Sorted insertion keeps a list ascending. -/
theorem Symbol.pairwise_insertSorted {s : Symbol} {l : List Symbol} (h : l.Pairwise (· < ·)) :
    (s.insertSorted l).Pairwise (· < ·) := by
  induction l with
  | nil => simp [insertSorted]
  | cons t rest ih =>
    have ⟨ht, hr⟩ := List.pairwise_cons.1 h
    unfold insertSorted
    split
    · next hlt =>
      refine List.pairwise_cons.2 ⟨fun x hx => ?_, h⟩
      rcases List.mem_cons.1 hx with rfl | hx
      · exact hlt
      · exact Nat.lt_trans hlt (ht x hx)
    · split
      · exact h
      · refine List.pairwise_cons.2 ⟨fun x hx => ?_, ih hr⟩
        rcases Symbol.mem_insertSorted.1 hx with rfl | hx
        · exact Symbol.lt_iff.2 (by omega)
        · exact ht x hx

/-- A set of symbols among those it covers. -/
structure SymbolSet where
  /-- How many symbols the set covers: those with a number below the width. -/
  width : Nat
  /-- The members, in ascending order. -/
  members : List Symbol
  /-- The members ascend strictly. -/
  ascending : members.Pairwise (· < ·)
  /-- The set covers its members. -/
  covered : ∀ s ∈ members, s.id < width
deriving DecidableEq

namespace SymbolSet

/-- The set without members over the first `n` symbols. -/
def ofWidth (n : Nat) : SymbolSet := ⟨n, [], .nil, by simp⟩

/-- The set that covers no symbol. -/
def empty : SymbolSet := ofWidth 0

instance : Inhabited SymbolSet := ⟨empty⟩

/-- Whether the symbol is a member. -/
def contains (set : SymbolSet) (s : Symbol) : Bool := set.members.contains s

instance : Membership Symbol SymbolSet := ⟨fun set s => s ∈ set.members⟩

/-- The members of a set are those it lists. -/
theorem mem_def {set : SymbolSet} {s : Symbol} : s ∈ set ↔ s ∈ set.members := Iff.rfl

/-- Membership is what `contains` decides. -/
@[simp] theorem contains_iff {set : SymbolSet} {s : Symbol} : set.contains s = true ↔ s ∈ set := by
  simp [contains, mem_def]

instance (set : SymbolSet) (s : Symbol) : Decidable (s ∈ set) :=
  inferInstanceAs (Decidable (s ∈ set.members))

/-- Adds a symbol, and widens the set to cover it. -/
def insert (set : SymbolSet) (s : Symbol) : SymbolSet where
  width := max set.width (s.id + 1)
  members := s.insertSorted set.members
  ascending := Symbol.pairwise_insertSorted set.ascending
  covered x hx := by
    rcases Symbol.mem_insertSorted.1 hx with rfl | hx
    · omega
    · have := set.covered x hx; omega

/-- Removes a symbol and keeps the width. -/
def erase (set : SymbolSet) (s : Symbol) : SymbolSet where
  width := set.width
  members := set.members.filter (· ≠ s)
  ascending := set.ascending.filter _
  covered x hx := set.covered x (List.mem_filter.1 hx).1

/-- Adds the symbols of a list, one after the other. -/
def insertAll (set : SymbolSet) (symbols : List Symbol) : SymbolSet := symbols.foldl insert set

/-- The narrowest set with the given members. -/
def ofList (symbols : List Symbol) : SymbolSet := empty.insertAll symbols

/-- Whether the set covers no symbol at all. -/
def isEmpty (set : SymbolSet) : Bool := set.width == 0

/-- How many members the set has. -/
def count (set : SymbolSet) : Nat := set.members.length

@[simp] theorem not_mem_ofWidth {n : Nat} {s : Symbol} : s ∉ ofWidth n := by
  simp [mem_def, ofWidth]

@[simp] theorem not_mem_empty {s : Symbol} : s ∉ empty := not_mem_ofWidth

@[simp] theorem mem_insert {set : SymbolSet} {s x : Symbol} :
    x ∈ set.insert s ↔ x = s ∨ x ∈ set :=
  Symbol.mem_insertSorted

@[simp] theorem mem_erase {set : SymbolSet} {s x : Symbol} :
    x ∈ set.erase s ↔ x ∈ set ∧ x ≠ s := by
  simp [mem_def, erase]

@[simp] theorem mem_insertAll {set : SymbolSet} {symbols : List Symbol} {x : Symbol} :
    x ∈ set.insertAll symbols ↔ x ∈ symbols ∨ x ∈ set := by
  unfold insertAll
  induction symbols generalizing set with
  | nil => simp
  | cons s rest ih => simp [ih, or_assoc, or_left_comm]

@[simp] theorem mem_ofList {symbols : List Symbol} {x : Symbol} :
    x ∈ ofList symbols ↔ x ∈ symbols := by
  simp [ofList]

/-- Two ascending lists with the same members are the same list. -/
theorem eq_of_ascending {l m : List Symbol} (hl : l.Pairwise (· < ·)) (hm : m.Pairwise (· < ·))
    (h : ∀ s, s ∈ l ↔ s ∈ m) : l = m := by
  induction l generalizing m with
  | nil => cases m with
    | nil => rfl
    | cons b _ => exact absurd ((h b).2 (by simp)) (by simp)
  | cons a l ih =>
    cases m with
    | nil => exact absurd ((h a).1 (by simp)) (by simp)
    | cons b m =>
      have ⟨ha, hl'⟩ := List.pairwise_cons.1 hl
      have ⟨hb, hm'⟩ := List.pairwise_cons.1 hm
      have hab : a = b := by
        rcases List.mem_cons.1 ((h a).1 (by simp)) with e | hamem
        · exact e
        · rcases List.mem_cons.1 ((h b).2 (by simp)) with e | hbmem
          · exact e.symm
          · have h1 := Symbol.lt_iff.1 (ha b hbmem)
            have h2 := Symbol.lt_iff.1 (hb a hamem)
            omega
      subst hab
      refine congrArg (a :: ·) (ih hl' hm' fun s => ⟨fun hs => ?_, fun hs => ?_⟩)
      · rcases List.mem_cons.1 ((h s).1 (List.mem_cons_of_mem _ hs)) with e | hs'
        · subst e; exact absurd (Symbol.lt_iff.1 (ha s hs)) (by omega)
        · exact hs'
      · rcases List.mem_cons.1 ((h s).2 (List.mem_cons_of_mem _ hs)) with e | hs'
        · subst e; exact absurd (Symbol.lt_iff.1 (hb s hs)) (by omega)
        · exact hs'

/-- Two sets are equal when they cover the same symbols and have the same members. -/
theorem ext_contains {a b : SymbolSet} (hw : a.width = b.width) (h : ∀ s, s ∈ a ↔ s ∈ b) :
    a = b := by
  have hm := eq_of_ascending a.ascending b.ascending h
  cases a; cases b; simp_all

end SymbolSet

end ContextFree
