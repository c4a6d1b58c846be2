import ContextFree.Text.Lines

/-!
# Lines put together

Lines that hold neither line feeds nor carriage returns are the lines of the text that has a line
feed after each of them (`Text.lines_flatMap`). If no line is empty, they are also the lines of the
text that has a line feed between any two of them (`Text.lines_intercalate`).
-/

namespace ContextFree.Text

/-- The line holds none of the characters that can end a line. -/
def IsSingle (line : List Char) : Prop := '\n' ∉ line ∧ '\r' ∉ line

variable {line : List Char} {ls : List (List Char)}

/-- A character that cannot end a line is put in front of the first line of the rest. -/
theorem lines_cons {c : Char} (hfeed : c ≠ '\n') (hreturn : c ≠ '\r') (rest : List Char) :
    lines (c :: rest) = prepend c (lines rest) :=
  lines.eq_4 c rest (fun _ h => absurd h hreturn) hfeed

/-- A line feed ends the line before it. -/
theorem lines_append_cons (h : IsSingle line) (rest : List Char) :
    lines (line ++ '\n' :: rest) = line :: lines rest := by
  induction line with
  | nil => rfl
  | cons c line ih =>
    obtain ⟨⟨hfeed, hfeeds⟩, hreturn, hreturns⟩ :
        (c ≠ '\n' ∧ '\n' ∉ line) ∧ c ≠ '\r' ∧ '\r' ∉ line := by
      simpa [IsSingle, eq_comm] using h
    rw [List.cons_append, lines_cons hfeed hreturn, ih ⟨hfeeds, hreturns⟩]
    rfl

/-- A text without line ends is a line, unless it is empty. -/
theorem lines_of_isSingle (h : IsSingle line) (hne : line ≠ []) : lines line = [line] := by
  induction line with
  | nil => exact absurd rfl hne
  | cons c line ih =>
    obtain ⟨⟨hfeed, hfeeds⟩, hreturn, hreturns⟩ :
        (c ≠ '\n' ∧ '\n' ∉ line) ∧ c ≠ '\r' ∧ '\r' ∉ line := by
      simpa [IsSingle, eq_comm] using h
    rw [lines_cons hfeed hreturn]
    cases line with
    | nil => rfl
    | cons d line =>
      rw [ih ⟨hfeeds, hreturns⟩ (List.cons_ne_nil _ _)]
      rfl

/-- Each line feed at the beginning of a text ends an empty line. -/
theorem lines_replicate_append (n : Nat) (rest : List Char) :
    lines (List.replicate n '\n' ++ rest) = List.replicate n [] ++ lines rest := by
  induction n with
  | zero => rfl
  | succ n ih =>
    rw [List.replicate_succ, List.replicate_succ, List.cons_append, List.cons_append, ← ih]
    rfl

/-- Lines with a line feed after each are the lines of their text. -/
theorem lines_flatMap (h : ∀ line ∈ ls, IsSingle line) : lines (ls.flatMap (· ++ ['\n'])) = ls := by
  induction ls with
  | nil => rfl
  | cons line ls ih =>
    have hfirst := lines_append_cons (h line List.mem_cons_self) (ls.flatMap (· ++ ['\n']))
    rw [List.flatMap_cons, List.append_assoc, List.singleton_append, hfirst,
      ih fun l hl => h l (List.mem_cons_of_mem _ hl)]

/-- Lines with a line feed between any two are the lines of their text, if none is empty. -/
theorem lines_intercalate (h : ∀ line ∈ ls, IsSingle line) (hne : ∀ line ∈ ls, line ≠ []) :
    lines (['\n'].intercalate ls) = ls := by
  induction ls with
  | nil => rfl
  | cons line ls ih =>
    have hline := h line List.mem_cons_self
    cases ls with
    | nil =>
      rw [List.intercalate_singleton]
      exact lines_of_isSingle hline (hne line List.mem_cons_self)
    | cons next ls =>
      have hrest := ih (fun l hl => h l (List.mem_cons_of_mem _ hl))
        fun l hl => hne l (List.mem_cons_of_mem _ hl)
      rw [List.intercalate_cons_cons, List.append_assoc, List.singleton_append,
        lines_append_cons hline, hrest]

end ContextFree.Text
