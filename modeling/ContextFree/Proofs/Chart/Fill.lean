import ContextFree.Chart.Recognizer

/-!
# The cells of a chart

A cell is filled once and for all: the diagonals filled later leave it as it is
(`Recognizer.cell_fill_of_le`). The cells of a chart are therefore those that solve its equations. A
single position has the cell made for it (`Recognizer.cell_fill_single`), and the cell of a longer
span has the reasons that the finished chart itself gives for it (`Recognizer.cell_fill_longer`). A
reason divides its span in two, with the variables of its rule in the cells of the two parts
(`Recognizer.mem_reasons_iff`).
-/

namespace ContextFree

/-- The symbols of an input at the positions of a span. -/
def Span.slice (span : Span) (input : List Symbol) : List Symbol :=
  (input.drop span.first).take span.length

namespace Span

variable {input : List Symbol} {i d : Nat}

theorem length_mk (i d : Nat) : (⟨i, i + d⟩ : Span).length = d + 1 := by
  show i + d + 1 - i = d + 1
  omega

theorem length_slice (h : i + d < input.length) :
    ((⟨i, i + d⟩ : Span).slice input).length = d + 1 := by
  rw [slice, List.length_take, List.length_drop, length_mk]
  show min (d + 1) (input.length - i) = d + 1
  omega

/-- A single position has the symbol there. -/
theorem slice_single {a : Symbol} (h : input[i]? = some a) : (⟨i, i⟩ : Span).slice input = [a] := by
  obtain ⟨hi, rfl⟩ := List.getElem?_eq_some_iff.1 h
  have hlen : (⟨i, i⟩ : Span).length = 1 := length_mk i 0
  rw [slice, hlen, List.drop_eq_getElem_cons hi]
  rfl

/-- A span divided in two has the symbols of its first part followed by those of the second. -/
theorem slice_append {k : Nat} (hk : k < d) :
    (⟨i, i + k⟩ : Span).slice input ++ (⟨i + k + 1, i + d⟩ : Span).slice input =
      (⟨i, i + d⟩ : Span).slice input := by
  have hright : (⟨i + k + 1, i + d⟩ : Span).length = d - k := by
    show i + d + 1 - (i + k + 1) = d - k
    omega
  have hall : d + 1 = (k + 1) + (d - k) := by omega
  rw [slice, slice, slice, length_mk, length_mk, hright, hall]
  dsimp only
  rw [List.take_add (i := k + 1), List.drop_drop, Nat.add_assoc]

/-- Two parts of a span's symbols, neither of them empty, are those of a division of the span. -/
theorem exists_of_slice_eq_append (h : i + d < input.length) {u v : List Symbol} (hu : u ≠ [])
    (hv : v ≠ []) (huv : (⟨i, i + d⟩ : Span).slice input = u ++ v) :
    ∃ k < d, u = (⟨i, i + k⟩ : Span).slice input ∧ v = (⟨i + k + 1, i + d⟩ : Span).slice input := by
  have hlen := congrArg List.length huv
  rw [length_slice h, List.length_append] at hlen
  have hupos := List.length_pos_iff.2 hu
  have hvpos := List.length_pos_iff.2 hv
  have hk : u.length - 1 < d := by omega
  -- The last position of the first part follows from its length.
  have hleft : ((⟨i, i + (u.length - 1)⟩ : Span).slice input).length = u.length := by
    rw [length_slice (by omega)]
    omega
  rw [← slice_append hk] at huv
  obtain ⟨hfirst, hsecond⟩ := List.append_inj huv hleft
  exact ⟨u.length - 1, hk, hfirst.symm, hsecond.symm⟩

end Span

namespace Recognizer

variable {rules : List BinaryRule} {lexical : List Cell} {diagonals : Diagonals} {size d i : Nat}

theorem length_fill (rules : List BinaryRule) (lexical : List Cell) (size : Nat) :
    (fill rules lexical size).length = size + 1 := by
  induction size with
  | zero => rfl
  | succ size ih =>
    rw [fill, List.length_append, ih]
    rfl

/-- The cells of a diagonal stay as they are when longer spans are filled. -/
theorem cell_fill_of_le (h : d ≤ size) :
    (fill rules lexical size).cell ⟨i, i + d⟩ = (fill rules lexical d).cell ⟨i, i + d⟩ := by
  induction size with
  | zero =>
    obtain rfl : d = 0 := by omega
    rfl
  | succ size ih =>
    rcases Nat.lt_or_ge size d with hlt | hle
    -- The diagonal filled last is the one asked for.
    · obtain rfl : d = size + 1 := by omega
      rfl
    · have hdiagonal : i + d - i < (fill rules lexical size).length := by
        rw [length_fill]
        omega
      rw [← ih hle, fill, Diagonals.cell, Diagonals.cell]
      dsimp only
      rw [List.getElem?_append_left hdiagonal]

/-- A single position has the cell made for it. -/
theorem cell_fill_single (rules : List BinaryRule) (lexical : List Cell) (size i : Nat) :
    (fill rules lexical size).cell ⟨i, i⟩ = (lexical[i]?).getD .empty := by
  have hfirst : (fill rules lexical size).cell ⟨i, i + 0⟩ =
      (fill rules lexical 0).cell ⟨i, i + 0⟩ := cell_fill_of_le (Nat.zero_le size)
  rw [Nat.add_zero] at hfirst
  rw [hfirst, fill, Diagonals.cell]
  dsimp only
  rw [Nat.sub_self]
  rfl

/-- A reason for a span divides it and has the variables of its rule in the cells of both parts. -/
theorem mem_reasons_iff {reason : Justification} :
    reason ∈ reasons rules diagonals d i ↔
      reason.rule ∈ rules ∧ ∃ k < d, reason.left = ⟨i, i + k⟩ ∧ reason.right = ⟨i + k + 1, i + d⟩ ∧
        (diagonals.cell ⟨i, i + k⟩).contains reason.rule.left = true ∧
        (diagonals.cell ⟨i + k + 1, i + d⟩).contains reason.rule.right = true := by
  obtain ⟨rule, left, right⟩ := reason
  simp only [reasons, reasonsAt, List.mem_flatMap, List.mem_range, List.mem_map, List.mem_filter,
    Bool.and_eq_true, Justification.mk.injEq]
  constructor
  · rintro ⟨k, hk, rule, ⟨hm, hleft, hright⟩, rfl, rfl, rfl⟩
    exact ⟨hm, k, hk, rfl, rfl, hleft, hright⟩
  · rintro ⟨hm, k, hk, rfl, rfl, hleft, hright⟩
    exact ⟨k, hk, rule, ⟨hm, hleft, hright⟩, rfl, rfl, rfl⟩

/-- The reasons for a span depend on the cells of shorter spans only. -/
theorem reasons_congr {diagonals' : Diagonals}
    (h : ∀ k < d, ∀ j, diagonals.cell ⟨j, j + k⟩ = diagonals'.cell ⟨j, j + k⟩) :
    reasons rules diagonals d i = reasons rules diagonals' d i := by
  rw [reasons, reasons, List.flatMap_def, List.flatMap_def]
  congr 1
  refine List.map_congr_left fun k hk => ?_
  rw [List.mem_range] at hk
  -- The second part begins further on, and is shorter as well.
  have hright : i + d = i + k + 1 + (d - k - 1) := by omega
  rw [reasonsAt, reasonsAt, h k hk, hright, h (d - k - 1) (by omega)]

/-- A longer span has the reasons that the finished chart gives for it. -/
theorem cell_fill_longer (hd : d + 1 ≤ size) (hi : i + (d + 1) < lexical.length) :
    (fill rules lexical size).cell ⟨i, i + (d + 1)⟩ =
      .ofReasons (reasons rules (fill rules lexical size) (d + 1) i) := by
  -- The cell was filled from the diagonals before it, which the finished chart has as well.
  have hreasons : reasons rules (fill rules lexical d) (d + 1) i =
      reasons rules (fill rules lexical size) (d + 1) i := by
    refine reasons_congr fun k hk j => ?_
    rw [cell_fill_of_le (show k ≤ d by omega), cell_fill_of_le (show k ≤ size by omega)]
  have hspan : i + (d + 1) - i = (fill rules lexical d).length := by
    rw [length_fill]
    omega
  rw [cell_fill_of_le hd, fill, Diagonals.cell]
  dsimp only
  rw [hspan, List.getElem?_concat_length, Option.getD_some, List.getElem?_map,
    List.getElem?_range (by omega), Option.map_some, Option.getD_some, hreasons]

end Recognizer

end ContextFree
