import ContextFree.Proofs.Grammar.Reachability

/-!
# Closing a relation in place

A relation can be closed without copying it: for each pivot, the row of the pivot is added to the
rows of the symbols related to it, one row after the other, and each step sees what the steps before
it did (`SymbolRelation.closeInPlace`). The row of the pivot stays as it is while it is added to the
others, also where the pivot is related to itself, so the rows done so far are those that taking the
pivot all at once gives (`SymbolRelation.getElem?_foldl_addRow`). The relations of a grammar whose
rules mention its own symbols only are exact for these (`Grammar.reachability_exact`).
-/

namespace ContextFree

/-- Inserting members changes nothing. -/
theorem SymbolSet.insertAll_eq_self {set : SymbolSet} {symbols : List Symbol}
    (h : ∀ s ∈ symbols, s ∈ set) : set.insertAll symbols = set := by
  unfold insertAll
  induction symbols with
  | nil => rfl
  | cons s symbols ih =>
    have hs : s ∈ set := h s (by simp)
    have hinsert : set.insert s = set := by
      refine ext_contains (Nat.max_eq_left (set.covered s hs)) fun t => ?_
      rw [mem_insert]
      exact ⟨fun ht => ht.elim (fun he => he ▸ hs) id, .inr⟩
    rw [List.foldl_cons, hinsert]
    exact ih fun t ht => h t (by simp [ht])

namespace SymbolRelation

variable {r : SymbolRelation} {s t pivot : Symbol}

/-- Adds the row of the pivot to the row of a symbol, if that is related to the pivot. -/
def addRow (pivot : Symbol) (r : SymbolRelation) (s : Symbol) : SymbolRelation :=
  if (r.row s).contains pivot then r.relate s (r.row pivot).members else r

/-- Closes a relation in place: for every symbol as the pivot in turn, goes through the rows and
adds the row of the pivot where it has to be added. -/
def closeInPlace (r : SymbolRelation) : SymbolRelation :=
  (Symbol.firstN r.size).foldl (fun r pivot => (Symbol.firstN r.size).foldl (addRow pivot) r) r

/-- What becomes of a row when the row of the pivot is to be added. -/
def withPivot (r : SymbolRelation) (pivot : Symbol) (row : SymbolSet) : SymbolSet :=
  if row.contains pivot then row.insertAll (r.row pivot).members else row

/-- Taking a pivot all at once adds its row to every row that it has to be added to. -/
theorem getElem?_rows_addPivot (r : SymbolRelation) (pivot : Symbol) (i : Nat) :
    (r.addPivot pivot).rows[i]? = r.rows[i]?.map (r.withPivot pivot) :=
  List.getElem?_map ..

/-- Taking a pivot leaves its own row as it is. -/
theorem row_addPivot_self (r : SymbolRelation) (pivot : Symbol) :
    (r.addPivot pivot).row pivot = r.row pivot := by
  rw [row, getElem?_rows_addPivot]
  cases hrow : r.rows[pivot.id]? with
  | none => rw [row, hrow]; rfl
  | some row =>
    have hself : r.row pivot = row := by
      rw [SymbolRelation.row, hrow]
      rfl
    have hsame : r.withPivot pivot row = row := by
      rw [withPivot, hself, SymbolSet.insertAll_eq_self fun t ht => ht, ite_self]
    rw [Option.map_some, hsame, hself]
    rfl

/-- One step in place makes of one row what taking the pivot all at once makes of it, and leaves the
others as they are. -/
theorem getElem?_rows_addRow (pivot : Symbol) (r : SymbolRelation) (s : Symbol) (i : Nat) :
    (r.addRow pivot s).rows[i]? =
      if s.id = i then r.rows[i]?.map (r.withPivot pivot) else r.rows[i]? := by
  by_cases hi : s.id = i
  · subst hi
    rw [if_pos rfl, addRow]
    cases hrow : r.rows[s.id]? with
    | none =>
      have hnot : (r.row s).contains pivot = false := by
        rw [row, hrow]
        rfl
      rw [hnot, if_neg Bool.false_ne_true, hrow]
      rfl
    | some row =>
      have hs : r.row s = row := by
        rw [SymbolRelation.row, hrow]
        rfl
      rw [hs, Option.map_some, withPivot]
      split
      · rw [relate, List.getElem?_modify, hrow]
        simp
      · exact hrow
  · rw [if_neg hi, addRow]
    split
    · rw [relate, List.getElem?_modify]
      simp [hi]
    · rfl

/-- Going through the first `n` rows in place makes them what taking the pivot all at once makes
them, and leaves the others as they are. -/
theorem getElem?_foldl_addRow (r : SymbolRelation) (pivot : Symbol) (n i : Nat) :
    ((Symbol.firstN n).foldl (addRow pivot) r).rows[i]? =
      if i < n then (r.addPivot pivot).rows[i]? else r.rows[i]? := by
  induction n generalizing i with
  | zero => rfl
  | succ n ih =>
    -- The row of the pivot is the same whether it was gone through or not.
    have hpivot : ((Symbol.firstN n).foldl (addRow pivot) r).row pivot = r.row pivot := by
      rw [row, ih]
      split
      · exact r.row_addPivot_self pivot
      · rfl
    have hwith : ((Symbol.firstN n).foldl (addRow pivot) r).withPivot pivot =
        r.withPivot pivot := by
      funext row
      rw [withPivot, hpivot, withPivot]
    have hlast : Symbol.firstN (n + 1) = Symbol.firstN n ++ [⟨n⟩] := by
      rw [Symbol.firstN, List.range_succ, List.map_append]
      rfl
    rw [hlast, List.foldl_append, List.foldl_cons, List.foldl_nil, getElem?_rows_addRow, hwith, ih]
    dsimp only
    rcases Nat.lt_trichotomy i n with hlt | rfl | hgt
    · rw [if_neg (by omega), if_pos hlt, if_pos (by omega)]
    · rw [if_pos rfl, if_neg (Nat.lt_irrefl i), if_pos (Nat.lt_succ_self i), getElem?_rows_addPivot]
    · rw [if_neg (by omega), if_neg (by omega), if_neg (by omega)]

/-- Going through all rows in place is taking the pivot all at once. -/
theorem foldl_addRow_eq (r : SymbolRelation) (pivot : Symbol) :
    (Symbol.firstN r.size).foldl (addRow pivot) r = r.addPivot pivot := by
  have hrows : ((Symbol.firstN r.size).foldl (addRow pivot) r).rows = (r.addPivot pivot).rows := by
    refine List.ext_getElem? fun i => ?_
    rw [getElem?_foldl_addRow]
    split
    · rfl
    · next hge =>
      have hsize : r.rows.length ≤ i := Nat.not_lt.1 hge
      rw [getElem?_rows_addPivot, List.getElem?_eq_none hsize]
      rfl
  exact congrArg SymbolRelation.mk hrows

/-- Closing in place gives the same relation. -/
theorem closeInPlace_eq (r : SymbolRelation) : r.closeInPlace = r.transitive := by
  simp only [closeInPlace, transitive, foldl_addRow_eq]

end SymbolRelation

namespace Grammar

variable {g : Grammar}

/-- In a grammar whose rules mention its own symbols only, the relations between symbols are exact.
The direct derivation relation, closed in place, relates a symbol to those at the end of a chain of
one or more steps, each of which goes from the left-hand side of a rule to a symbol on its
right-hand side. With the diagonal added, a chain may have no steps, and so the symbols reachable
from a symbol are those that such a chain leads to. -/
theorem reachability_exact (hk : ∀ rule ∈ g.rules, g.knows rule.lhs = true ∧
      ∀ s ∈ rule.rhs, g.knows s = true) {s t : Symbol} (hs : g.knows s = true) :
    (g.directDerivation.closeInPlace.Relates s t ↔ Relation.TransGen g.LeadsTo s t) ∧
      g.directDerivation.closeInPlace.reflexive = g.reachability ∧
      (t ∈ g.reachableFrom s ↔ Relation.ReflTransGen g.LeadsTo s t) := by
  have hl : ∀ rule ∈ g.rules, g.knows rule.lhs = true := fun rule hr => (hk rule hr).1
  rw [SymbolRelation.closeInPlace_eq]
  exact ⟨relates_transitive_directDerivation_iff hl, rfl, mem_reachableFrom_iff_of_knows hl hs⟩

/-- The grammar with the rules `S → A`, `A → B x`, `B → A` and `C → S`. A cycle goes by `A` and `B`,
and nothing leads to `C`. -/
def cyclic : Grammar :=
  Grammar.empty
    |>.addVariable (some "S")
    |>.addVariable (some "A")
    |>.addVariable (some "B")
    |>.addVariable (some "C")
    |>.addTerminal "x"
    |>.addRule ⟨⟨0⟩, [⟨1⟩]⟩
    |>.addRule ⟨⟨1⟩, [⟨2⟩, ⟨4⟩]⟩
    |>.addRule ⟨⟨2⟩, [⟨1⟩]⟩
    |>.addRule ⟨⟨3⟩, [⟨0⟩]⟩

/-- The variable `A` is related to itself by the cycle, but `S` is reachable from itself only since
a chain may have no steps, and `C` is not reachable from `S` at all. -/
theorem reachability_exact_cyclic :
    (∀ rule ∈ cyclic.rules, cyclic.knows rule.lhs = true ∧
      ∀ s ∈ rule.rhs, cyclic.knows s = true) ∧
    Relation.TransGen cyclic.LeadsTo ⟨1⟩ ⟨1⟩ ∧ ¬Relation.TransGen cyclic.LeadsTo ⟨0⟩ ⟨0⟩ ∧
      ⟨0⟩ ∈ cyclic.reachableFrom ⟨0⟩ ∧ ¬Relation.ReflTransGen cyclic.LeadsTo ⟨0⟩ ⟨3⟩ := by
  have hk : ∀ rule ∈ cyclic.rules, cyclic.knows rule.lhs = true ∧
      ∀ s ∈ rule.rhs, cyclic.knows s = true := by
    decide +kernel
  have hone : cyclic.knows ⟨1⟩ = true := by decide +kernel
  have hzero : cyclic.knows ⟨0⟩ = true := by decide +kernel
  refine ⟨hk, (reachability_exact hk hone).1.1 ?_, fun h => ?_, ?_, fun h => ?_⟩
  · have hrow : ⟨1⟩ ∈ cyclic.directDerivation.closeInPlace.row ⟨1⟩ := by decide +kernel
    exact hrow
  · have hrow : ⟨0⟩ ∉ cyclic.directDerivation.closeInPlace.row ⟨0⟩ := by decide +kernel
    exact hrow ((reachability_exact hk hzero).1.2 h)
  · exact (reachability_exact hk hzero).2.2.2 .refl
  · have hrow : ⟨3⟩ ∉ cyclic.reachableFrom ⟨0⟩ := by decide +kernel
    exact hrow ((reachability_exact hk hzero).2.2.2 h)

end Grammar

end ContextFree
