import ContextFree.Grammar.Reader
import Mathlib.Algebra.Group.Nat.Defs
import Mathlib.Data.List.DropRight
import Mathlib.Data.List.Forall2

/-!
# What a line of a grammar says

The notation described without reading it: which lines count (`Production.IsContent`), where the
first arrow of a line is (`Production.FirstArrow`), what a line says (`Production.Says`) and how a
line can be at fault, with the column of the fault (`Production.Faulty`). `Production.parse` finds
exactly what a line says (`Production.parse_eq_ok_iff`) and otherwise reports its fault
(`Production.faulty_of_parse`). Over several lines, `Production.parseLines` finds what each line
that counts says, or stops at the first one that says nothing (`Production.FirstFault`).

Faults are described with numbers of any size, but reported as words of 32 bits. A reported position
is the number modulo `2 ^ 32` (`LoadError.position_eq_ofNat`).
-/

namespace ContextFree

/-- The position behind `n` others is the number `n + 1` in 32 bits. -/
theorem LoadError.position_eq_ofNat (n : Nat) : position n = UInt32.ofNat (n + 1) := by
  rw [position, UInt32.ofNat_add]
  rfl

namespace Text

/-- The text without the blank characters at its beginning and at its end. -/
def trim (text : List Char) : List Char := (text.dropWhile isBlank).rdropWhile isBlank

/-- The characters of a text that are not blank. -/
def signs (text : List Char) : List Char := text.filter (!isBlank ·)

/-- The place, counted from zero, holds the character with the given number, counted from zero,
among those that are not blank. -/
def IsNthSign (text : List Char) (n place : Nat) (c : Char) : Prop :=
  text[place]? = some c ∧ isBlank c = false ∧ (signs (text.take place)).length = n

variable {text : List Char} {c : Char} {n place : Nat}

/-- Numbering the characters does not change which of them are not blank. -/
theorem map_fst_filter_zipIdx (text : List Char) :
    (text.zipIdx.filter fun (c, _) => !isBlank c).map (·.1) = signs text := by
  calc (text.zipIdx.filter fun (c, _) => !isBlank c).map (·.1)
      = (text.zipIdx.map (·.1)).filter (!isBlank ·) := by rw [List.filter_map]; rfl
    _ = signs text := by rw [List.zipIdx_map_fst, signs]

/-- Behind one more character everything stands one place later, and counts one more if that
character is not blank. -/
theorem IsNthSign.cons (h : IsNthSign text n place c) (d : Char) :
    IsNthSign (d :: text) (n + (signs [d]).length) (place + 1) c := by
  obtain ⟨hc, hblank, hn⟩ := h
  refine ⟨by simpa using hc, hblank, ?_⟩
  rw [List.take_succ_cons, ← hn]
  unfold signs
  rw [← List.singleton_append, List.filter_append, List.length_append, Nat.add_comm]

/-- The numbered characters that are not blank stand where their numbers say. -/
theorem isNthSign_of_getElem? {first : Nat}
    (h : ((text.zipIdx first).filter fun (c, _) => !isBlank c)[n]? = some (c, place)) :
    ∃ i, place = first + i ∧ IsNthSign text n i c := by
  induction text generalizing first n with
  | nil => simp at h
  | cons d rest ih =>
    rw [List.zipIdx_cons] at h
    cases hd : isBlank d with
    | true =>
      rw [List.filter_cons_of_neg (by simp [hd])] at h
      obtain ⟨i, rfl, hi⟩ := ih h
      exact ⟨i + 1, by omega, by simpa [signs, hd] using hi.cons d⟩
    | false =>
      rw [List.filter_cons_of_pos (by simp [hd])] at h
      cases n with
      | zero =>
        obtain ⟨rfl, rfl⟩ : d = c ∧ first = place := by simpa using h
        exact ⟨0, rfl, by simp [IsNthSign, hd, signs]⟩
      | succ m =>
        obtain ⟨i, rfl, hi⟩ := ih (n := m) (by simpa using h)
        exact ⟨i + 1, by omega, by simpa [signs, hd] using hi.cons d⟩

end Text

namespace Production

open LoadError (position position_eq_ofNat)
open Text (isBlank signs trim IsNthSign)

/-! ## Lines that count -/

/-- The line counts: it is not blank, and no comment. -/
def IsContent (line : List Char) : Prop := trim line ≠ [] ∧ (trim line).head? ≠ some '#'

instance : DecidablePred IsContent :=
  fun line => inferInstanceAs (Decidable (trim line ≠ [] ∧ (trim line).head? ≠ some '#'))

variable {line before after : List Char} {production : Production}

/-- A line is skipped exactly when it does not count. -/
theorem isSkipped_eq_false_iff : isSkipped line = false ↔ IsContent line := by
  unfold isSkipped IsContent trim Text.skipBlank
  cases h : line.dropWhile isBlank with
  | nil => simp
  | cons c rest =>
    -- The first character kept is not blank, so trimming the end keeps it, too.
    have hc : isBlank c = false := by
      have hhead := List.head?_dropWhile_not isBlank line
      simpa [h] using hhead
    have hne : (c :: rest).rdropWhile isBlank ≠ [] := by
      intro hnil
      have hblank := List.rdropWhile_eq_nil_iff.1 hnil c List.mem_cons_self
      rw [hc] at hblank
      exact absurd hblank Bool.false_ne_true
    have hhead : ((c :: rest).rdropWhile isBlank).head? = some c := by
      obtain ⟨d, kept, hkept⟩ := List.exists_cons_of_ne_nil hne
      have hprefix := List.rdropWhile_prefix isBlank (c :: rest)
      rw [hkept] at hprefix ⊢
      rw [(List.cons_prefix_cons.1 hprefix).1, List.head?_cons]
    rw [hhead]
    simp [hne]

/-! ## The first arrow -/

/-- The ways to write the arrow. -/
def arrows : List (List Char) := [['-', '>'], ['→']]

/-- The line has an arrow between the two texts. -/
def ArrowBetween (line before after : List Char) : Prop :=
  ∃ arrow ∈ arrows, line = before ++ arrow ++ after

/-- The line has an arrow between the two texts, and none that begins earlier. -/
structure FirstArrow (line before after : List Char) : Prop where
  /-- There is an arrow. -/
  between : ArrowBetween line before after
  /-- No arrow begins earlier. -/
  first : ∀ before' after', ArrowBetween line before' after' → before.length ≤ before'.length

/-- An arrow in a line that is not empty stands at its beginning or in the rest. -/
theorem arrowBetween_cons_iff {c : Char} {rest : List Char} :
    ArrowBetween (c :: rest) before after ↔
      (before = [] ∧ ∃ arrow ∈ arrows, c :: rest = arrow ++ after) ∨
        ∃ before', before = c :: before' ∧ ArrowBetween rest before' after := by
  unfold ArrowBetween
  cases before with
  | nil => simp
  | cons d before =>
    simp only [List.cons_append, List.cons.injEq, reduceCtorEq, false_and, false_or]
    constructor
    · rintro ⟨arrow, harrow, rfl, hrest⟩
      exact ⟨before, ⟨rfl, rfl⟩, arrow, harrow, hrest⟩
    · rintro ⟨before', ⟨rfl, rfl⟩, arrow, harrow, hrest⟩
      exact ⟨arrow, harrow, rfl, hrest⟩

/-- A line begins with an arrow only in one of the two ways to write it. -/
theorem not_begins {c : Char} {rest : List Char}
    (h₁ : ∀ tail, c = '-' → rest = '>' :: tail → False) (h₂ : c = '→' → False) :
    ¬∃ arrow ∈ arrows, c :: rest = arrow ++ after := by
  rintro ⟨arrow, harrow, h⟩
  simp only [arrows, List.mem_cons, List.not_mem_nil, or_false] at harrow
  rcases harrow with rfl | rfl
  · simp only [List.cons_append, List.nil_append, List.cons.injEq] at h
    exact h₁ after h.1 h.2
  · simp only [List.cons_append, List.nil_append, List.cons.injEq] at h
    exact h₂ h.1

/-- Splitting finds the first arrow, and fails only if there is none. -/
theorem splitArrow_spec (line : List Char) :
    (∀ before after, splitArrow line = some (before, after) → FirstArrow line before after) ∧
      (splitArrow line = none → ∀ before after, ¬ArrowBetween line before after) := by
  induction line using splitArrow.induct with
  | case1 =>
    refine ⟨fun before after h => absurd h (by simp [splitArrow]), fun _ before after h => ?_⟩
    obtain ⟨arrow, harrow, h⟩ := h
    obtain ⟨rfl, rfl, rfl⟩ : before = [] ∧ arrow = [] ∧ after = [] := by simpa using h.symm
    simp [arrows] at harrow
  | case2 rest =>
    refine ⟨fun before after h => ?_, fun h => absurd h (by simp [splitArrow])⟩
    obtain ⟨rfl, rfl⟩ : [] = before ∧ rest = after := by simpa [splitArrow] using h
    exact ⟨⟨['-', '>'], by simp [arrows], rfl⟩, fun _ _ _ => Nat.zero_le _⟩
  | case3 rest =>
    refine ⟨fun before after h => ?_, fun h => absurd h (by simp [splitArrow])⟩
    obtain ⟨rfl, rfl⟩ : [] = before ∧ rest = after := by simpa [splitArrow] using h
    exact ⟨⟨['→'], by simp [arrows], rfl⟩, fun _ _ _ => Nat.zero_le _⟩
  | case4 c rest h₁ h₂ ih =>
    rw [splitArrow.eq_4 c rest h₁ h₂]
    have hbegins : ∀ {after}, ¬∃ arrow ∈ arrows, c :: rest = arrow ++ after := not_begins h₁ h₂
    refine ⟨fun before after h => ?_, fun h before after harrow => ?_⟩
    · obtain ⟨⟨before, after⟩, hrest, heq⟩ := Option.map_eq_some_iff.1 h
      obtain ⟨rfl, rfl⟩ := Prod.mk.inj heq
      have hfirst := ih.1 before after hrest
      refine ⟨arrowBetween_cons_iff.2 (.inr ⟨before, rfl, hfirst.between⟩), ?_⟩
      intro before' after' h'
      rcases arrowBetween_cons_iff.1 h' with ⟨-, hb⟩ | ⟨before', rfl, hrest'⟩
      · exact absurd hb hbegins
      · exact Nat.succ_le_succ (hfirst.first before' after' hrest')
    · rcases arrowBetween_cons_iff.1 harrow with ⟨-, hb⟩ | ⟨before', -, harrow'⟩
      · exact hbegins hb
      · exact ih.2 (Option.map_eq_none_iff.1 h) before' after harrow'

/-- A line has at most one first arrow. -/
theorem FirstArrow.unique {before' after' : List Char} (h : FirstArrow line before after)
    (h' : FirstArrow line before' after') : before = before' ∧ after = after' := by
  obtain ⟨arrow, harrow, rfl⟩ := h.between
  obtain ⟨arrow', harrow', heq⟩ := h'.between
  have hlen : before.length = before'.length :=
    Nat.le_antisymm (h.first _ _ h'.between) (h'.first _ _ h.between)
  rw [List.append_assoc, List.append_assoc] at heq
  obtain ⟨rfl, htail⟩ := List.append_inj heq hlen
  refine ⟨rfl, ?_⟩
  -- The two ways to write the arrow differ in their first character.
  simp only [arrows, List.mem_cons, List.not_mem_nil, or_false] at harrow harrow'
  rcases harrow with rfl | rfl
  · rcases harrow' with rfl | rfl
    · simpa using htail
    · simp at htail
  · rcases harrow' with rfl | rfl
    · simp at htail
    · simpa using htail

/-- Splitting at the arrow is splitting at the first arrow. -/
theorem splitArrow_eq_some_iff :
    splitArrow line = some (before, after) ↔ FirstArrow line before after := by
  refine ⟨(splitArrow_spec line).1 before after, fun h => ?_⟩
  cases hs : splitArrow line with
  | none => exact absurd h.between ((splitArrow_spec line).2 hs before after)
  | some parts =>
    obtain ⟨before', after'⟩ := parts
    obtain ⟨rfl, rfl⟩ := h.unique ((splitArrow_spec line).1 before' after' hs)
    rfl

/-! ## What a line says -/

/-- The line says what the production does: a variable stands alone before the first arrow, and
after it the alternatives stand between bars, each made of the characters that are neither blank nor
a sign for the empty right-hand side. -/
def Says (line : List Char) (production : Production) : Prop :=
  ∃ before after, FirstArrow line before after ∧ signs before = [production.lhs] ∧
    production.lhs.isUpper = true ∧
    production.alternatives =
      (after.splitOn '|').map fun part => (signs part).filter fun c => c ≠ 'ε' ∧ c ≠ 'λ'

/-- The line is at fault, for the given reason and in the given column. -/
inductive Faulty (line : List Char) : LoadError.Reason → Nat → Prop where
  /-- There is no arrow, which is noticed at the end of the line. -/
  | missingArrow (none : ∀ before after, ¬ArrowBetween line before after) :
      Faulty line .missingArrow (line.length + 1)
  /-- Nothing stands before the first arrow. -/
  | missingLhs {before after : List Char} (arrow : FirstArrow line before after)
      (blank : signs before = []) : Faulty line .missingLhs 1
  /-- A second character stands before the first arrow. -/
  | severalSymbols {before after : List Char} {place : Nat} {c : Char}
      (arrow : FirstArrow line before after) (second : IsNthSign before 1 place c) :
      Faulty line .severalSymbols (place + 1)
  /-- The only character before the first arrow is no variable. -/
  | notVariable {before after : List Char} {place : Nat} {c : Char}
      (arrow : FirstArrow line before after) (only : signs before = [c])
      (here : IsNthSign before 0 place c) (notUpper : c.isUpper = false) :
      Faulty line .notVariable (place + 1)

/-- Splitting at the bars is splitting a list at an element. -/
theorem splitBars_eq_splitOn (text : List Char) : splitBars text = text.splitOn '|' := by
  induction text using splitBars.induct with
  | case1 => rfl
  | case2 rest ih =>
    rw [splitBars, ih, List.splitOn_cons_eq_if_modifyHead]
    rfl
  | case3 c rest hc ih =>
    have hbar : ¬(c == '|') = true := by simpa using hc
    obtain ⟨part, parts, hparts⟩ :=
      List.exists_cons_of_ne_nil (List.splitOnP_ne_nil (· == '|') rest)
    rw [← List.splitOn_eq_splitOnP] at hparts
    rw [splitBars.eq_3 c rest hc, ih, List.splitOn_cons_eq_if_modifyHead, if_neg hbar, hparts]
    rfl

/-- No part between bars holds a bar. -/
theorem not_mem_of_mem_splitBars {text part : List Char} (h : part ∈ splitBars text) :
    '|' ∉ part := by
  induction text using splitBars.induct generalizing part with
  | case1 =>
    rw [List.mem_singleton.1 h]
    exact List.not_mem_nil
  | case2 rest ih =>
    rcases List.mem_cons.1 h with rfl | h
    · exact List.not_mem_nil
    · exact ih h
  | case3 c rest hc ih =>
    rw [splitBars.eq_3 c rest hc] at h
    have hne : '|' ≠ c := fun e => hc e.symm
    cases hrest : splitBars rest with
    | nil =>
      rw [hrest] at h
      rw [List.mem_singleton.1 h]
      simpa using hne
    | cons first others =>
      rw [hrest] at h ih
      rcases List.mem_cons.1 h with rfl | h
      · have hfirst : '|' ∉ first := ih List.mem_cons_self
        simp [hne, hfirst]
      · exact ih (List.mem_cons_of_mem _ h)

/-- The symbols of an alternative are its characters that are not blank, without the signs for the
empty right-hand side. -/
theorem filter_isSymbol (part : List Char) :
    part.filter isSymbol = (signs part).filter fun c => c ≠ 'ε' ∧ c ≠ 'λ' := by
  unfold signs
  rw [List.filter_filter]
  refine List.filter_congr fun c _ => ?_
  unfold isSymbol
  cases isBlank c <;> simp [bne, beq_eq_decide]

/-- A left-hand side is a variable that stands alone. -/
theorem parseLhs_eq_ok_iff {c : Char} :
    parseLhs before = .ok c ↔ signs before = [c] ∧ c.isUpper = true := by
  rw [← Text.map_fst_filter_zipIdx]
  unfold parseLhs
  split
  · next h => simp [h]
  · next d i h =>
    rw [h]
    by_cases hd : d.isUpper = true
    · rw [if_pos hd]
      constructor
      · rintro ⟨⟩
        exact ⟨rfl, hd⟩
      · rintro ⟨hc, -⟩
        obtain rfl : d = c := by simpa using hc
        rfl
    · rw [if_neg hd]
      constructor
      · intro hc
        exact absurd hc (by simp)
      · rintro ⟨hc, hup⟩
        obtain rfl : d = c := by simpa using hc
        exact absurd hup hd
  · next h => simp [h]

/-- A left-hand side that is refused makes its line faulty. -/
theorem faulty_of_parseLhs {reason : LoadError.Reason} {reported : UInt32}
    (harrow : FirstArrow line before after) (h : parseLhs before = .error (reason, reported)) :
    ∃ column, Faulty line reason column ∧ reported = UInt32.ofNat column := by
  unfold parseLhs at h
  split at h
  · next hnil =>
    obtain ⟨rfl, rfl⟩ : .missingLhs = reason ∧ position 0 = reported := by simpa using h
    have hsigns := Text.map_fst_filter_zipIdx before
    rw [hnil] at hsigns
    exact ⟨1, .missingLhs harrow hsigns.symm, position_eq_ofNat 0⟩
  · next c i hone =>
    have hsigns := Text.map_fst_filter_zipIdx before
    rw [hone] at hsigns
    obtain ⟨place, hi, hplace⟩ := Text.isNthSign_of_getElem? (n := 0) (by rw [hone]; rfl)
    obtain rfl : i = place := by rw [hi, Nat.zero_add]
    by_cases hc : c.isUpper = true
    · simp [hc] at h
    · obtain ⟨rfl, rfl⟩ : .notVariable = reason ∧ position i = reported := by simpa [hc] using h
      have hfault := Faulty.notVariable harrow hsigns.symm hplace (by simpa using hc)
      exact ⟨i + 1, hfault, position_eq_ofNat i⟩
  · next c i rest hmore =>
    obtain ⟨rfl, rfl⟩ : .severalSymbols = reason ∧ position i = reported := by simpa using h
    obtain ⟨place, hi, hplace⟩ := Text.isNthSign_of_getElem? (n := 1) (by rw [hmore]; rfl)
    obtain rfl : i = place := by rw [hi, Nat.zero_add]
    exact ⟨i + 1, .severalSymbols harrow hplace, position_eq_ofNat i⟩

/-- Reading a line finds exactly what the line says. -/
theorem parse_eq_ok_iff : parse line = .ok production ↔ Says line production := by
  unfold parse
  constructor
  · intro h
    split at h
    · exact absurd h (by simp)
    · next before after hsplit =>
      cases hlhs : parseLhs before with
      | error e => simp [hlhs, Except.map] at h
      | ok c =>
        obtain rfl : ⟨c, (splitBars after).map (·.filter isSymbol)⟩ = production := by
          simpa [hlhs, Except.map] using h
        obtain ⟨hsigns, hup⟩ := parseLhs_eq_ok_iff.1 hlhs
        refine ⟨before, after, splitArrow_eq_some_iff.1 hsplit, hsigns, hup, ?_⟩
        simp only [splitBars_eq_splitOn, filter_isSymbol]
  · rintro ⟨before, after, harrow, hsigns, hup, halternatives⟩
    rw [splitArrow_eq_some_iff.2 harrow]
    simp only [parseLhs_eq_ok_iff.2 ⟨hsigns, hup⟩, Except.map, splitBars_eq_splitOn,
      filter_isSymbol, ← halternatives]

/-- A line that cannot be read is at fault where reading says. -/
theorem faulty_of_parse {reason : LoadError.Reason} {reported : UInt32}
    (h : parse line = .error (reason, reported)) :
    ∃ column, Faulty line reason column ∧ reported = UInt32.ofNat column := by
  unfold parse at h
  split at h
  · next hsplit =>
    obtain ⟨rfl, rfl⟩ : .missingArrow = reason ∧ position line.length = reported := by
      simpa using h
    have hfault := Faulty.missingArrow ((splitArrow_spec line).2 hsplit)
    exact ⟨line.length + 1, hfault, position_eq_ofNat line.length⟩
  · next before after hsplit =>
    cases hlhs : parseLhs before with
    | ok c => simp [hlhs, Except.map] at h
    | error e =>
      obtain rfl : e = (reason, reported) := by simpa [hlhs, Except.map] using h
      exact faulty_of_parseLhs (splitArrow_eq_some_iff.1 hsplit) hlhs

/-- The variable of a line is an uppercase letter, and its alternatives are made of symbols other
than the bar between them. -/
theorem Says.isUpper_and_isSymbol (h : Says line production) :
    production.lhs.isUpper = true ∧ production.alternatives ≠ [] ∧
      ∀ alternative ∈ production.alternatives, ∀ c ∈ alternative, isSymbol c = true ∧ c ≠ '|' := by
  obtain ⟨before, after, -, -, hup, halternatives⟩ := h
  refine ⟨hup, ?_, ?_⟩
  · rw [halternatives]
    simp
  · intro alternative hmem c hc
    rw [halternatives] at hmem
    obtain ⟨part, hpart, rfl⟩ := List.mem_map.1 hmem
    rw [← filter_isSymbol] at hc
    obtain ⟨hin, hsymbol⟩ := List.mem_filter.1 hc
    refine ⟨hsymbol, ?_⟩
    rintro rfl
    rw [← splitBars_eq_splitOn] at hpart
    exact not_mem_of_mem_splitBars hpart hin

/-! ## Lines together -/

/-- Each line says one of the productions, and each production is said by one of the lines. -/
theorem exists_says {lines : List (List Char)} {productions : List Production}
    (h : List.Forall₂ Says lines productions) :
    (∀ line ∈ lines, ∃ production, Says line production) ∧
      ∀ production ∈ productions, ∃ line, Says line production := by
  induction h with
  | nil => exact ⟨fun _ h => absurd h List.not_mem_nil, fun _ h => absurd h List.not_mem_nil⟩
  | cons hsays _ ih =>
    refine ⟨fun line hmem => ?_, fun production hmem => ?_⟩
    · rcases List.mem_cons.1 hmem with rfl | hmem
      · exact ⟨_, hsays⟩
      · exact ih.1 line hmem
    · rcases List.mem_cons.1 hmem with rfl | hmem
      · exact ⟨_, hsays⟩
      · exact ih.2 production hmem

/-- Reading lines finds exactly what the lines that count say. -/
theorem parseLines_eq_ok_iff {index : Nat} {lines : List (List Char)}
    {productions : List Production} :
    parseLines index lines = .ok productions ↔
      List.Forall₂ Says (lines.filter (IsContent ·)) productions := by
  induction lines generalizing index productions with
  | nil =>
    unfold parseLines
    cases productions <;> simp
  | cons line rest ih =>
    unfold parseLines
    cases hskip : isSkipped line with
    | true =>
      have hcontent : ¬IsContent line := by
        rw [← isSkipped_eq_false_iff, hskip]
        simp
      simpa [hcontent] using ih
    | false =>
      have hcontent := isSkipped_eq_false_iff.1 hskip
      rw [List.filter_cons_of_pos (by simpa using hcontent)]
      cases hline : parse line with
      | error e =>
        -- A line that says something could be read.
        constructor
        · intro h
          exact absurd h (by simp)
        · intro h
          obtain ⟨production, _, hsays, -, -⟩ := List.forall₂_cons_left_iff.1 h
          rw [parse_eq_ok_iff.2 hsays] at hline
          exact absurd hline (by simp)
      | ok first =>
        have hfirst := parse_eq_ok_iff.1 hline
        constructor
        · intro h
          cases hrest : parseLines (index + 1) rest with
          | error e => simp [hrest, Except.map] at h
          | ok others =>
            obtain rfl : first :: others = productions := by simpa [hrest, Except.map] using h
            exact .cons hfirst (ih.1 hrest)
        · intro h
          obtain ⟨production, others, hsays, hothers, rfl⟩ := List.forall₂_cons_left_iff.1 h
          obtain rfl : first = production := by
            have hsame := hline.symm.trans (parse_eq_ok_iff.2 hsays)
            simpa using hsame
          simp [ih.2 hothers, Except.map]

/-- Reading goes on behind lines that are skipped. -/
theorem parseLines_append_of_isSkipped {index : Nat} {skipped : List (List Char)}
    (h : ∀ line ∈ skipped, isSkipped line = true) (rest : List (List Char)) :
    parseLines index (skipped ++ rest) = parseLines (index + skipped.length) rest := by
  induction skipped generalizing index with
  | nil => rfl
  | cons line skipped ih =>
    obtain ⟨hline, hskipped⟩ := List.forall_mem_cons.1 h
    rw [List.cons_append, parseLines, if_pos hline, ih hskipped, List.length_cons, Nat.add_assoc,
      Nat.add_comm 1]

/-- What is wrong with a text of the given lines, and in which line and column: no line counts at
all, which is noticed at its beginning, or a line counts that says nothing, and it is the first such
line. -/
inductive FirstFault (lines : List (List Char)) : LoadError.Reason → Nat → Nat → Prop where
  /-- No line counts. -/
  | noRules (none : ∀ line ∈ lines, ¬IsContent line) : FirstFault lines .noRules 1 1
  /-- The line behind the ones before it is at fault, and those say something if they count. -/
  | line {before after : List (List Char)} {line : List Char} {reason : LoadError.Reason}
      {column : Nat} (here : lines = before ++ line :: after) (content : IsContent line)
      (silent : ¬∃ production, Says line production) (fault : Faulty line reason column)
      (earlier : ∀ l ∈ before, IsContent l → ∃ production, Says l production) :
      FirstFault lines reason (before.length + 1) column

/-- Among the lines, which stand behind the given number of others, the first one that counts and
cannot be read is the one with the error. -/
inductive StopsAt : (index : Nat) → List (List Char) → LoadError → Prop where
  /-- The first line counts and cannot be read. -/
  | here {index : Nat} {line : List Char} {rest : List (List Char)} {reason : LoadError.Reason}
      {column : UInt32} (content : IsContent line) (fault : parse line = .error (reason, column)) :
      StopsAt index (line :: rest) ⟨reason, position index, column⟩
  /-- The first line says something if it counts, and the error is in the rest. -/
  | later {index : Nat} {line : List Char} {rest : List (List Char)} {e : LoadError}
      (past : IsContent line → ∃ production, Says line production)
      (stops : StopsAt (index + 1) rest e) : StopsAt index (line :: rest) e

/-- Reading lines stops at the first line that cannot be read. -/
theorem stopsAt_of_parseLines {index : Nat} {lines : List (List Char)} {e : LoadError}
    (h : parseLines index lines = .error e) : StopsAt index lines e := by
  induction lines generalizing index with
  | nil => simp [parseLines] at h
  | cons line rest ih =>
    unfold parseLines at h
    cases hskip : isSkipped line with
    | true =>
      rw [hskip, if_pos rfl] at h
      refine .later (fun hcontent => ?_) (ih h)
      rw [← isSkipped_eq_false_iff, hskip] at hcontent
      exact absurd hcontent (by simp)
    | false =>
      rw [hskip, if_neg Bool.false_ne_true] at h
      cases hline : parse line with
      | error fault =>
        obtain ⟨reason, column⟩ := fault
        obtain rfl : ⟨reason, position index, column⟩ = e := by simpa [hline] using h
        exact .here (isSkipped_eq_false_iff.1 hskip) hline
      | ok production =>
        cases hrest : parseLines (index + 1) rest with
        | ok productions => simp [hline, hrest, Except.map] at h
        | error e' =>
          obtain rfl : e' = e := by simpa [hline, hrest, Except.map] using h
          exact .later (fun _ => ⟨production, parse_eq_ok_iff.1 hline⟩) (ih hrest)

/-- The lines before the one with the error say something if they count, and its number tells how
many lines stand before it. -/
theorem StopsAt.exists_append {index : Nat} {lines : List (List Char)} {e : LoadError}
    (h : StopsAt index lines e) :
    ∃ before line after, lines = before ++ line :: after ∧
      e.line = position (index + before.length) ∧ IsContent line ∧
      parse line = .error (e.reason, e.column) ∧
      ∀ earlier ∈ before, IsContent earlier → ∃ production, Says earlier production := by
  induction h with
  | @here index line rest reason column content fault =>
    exact ⟨[], line, rest, rfl, rfl, content, fault, fun _ hm => absurd hm List.not_mem_nil⟩
  | @later index line rest e past _ ih =>
    obtain ⟨before, line', after, rfl, hnumber, hcontent, hparse, hbefore⟩ := ih
    refine ⟨line :: before, line', after, rfl, ?_, hcontent, hparse,
      List.forall_mem_cons.2 ⟨past, hbefore⟩⟩
    rw [hnumber, List.length_cons, Nat.add_assoc, Nat.add_comm 1]

/-- A fault is noticed within its line or right behind it. -/
theorem Faulty.column_le {reason : LoadError.Reason} {column : Nat}
    (h : Faulty line reason column) : column ≤ line.length + 1 := by
  have hplace : ∀ {before after : List Char} {n place : Nat} {c : Char},
      FirstArrow line before after → IsNthSign before n place c → place < line.length := by
    intro before after n place c harrow hsign
    obtain ⟨arrow, -, rfl⟩ := harrow.between
    have hbefore := (List.getElem?_eq_some_iff.1 hsign.1).1
    rw [List.append_assoc, List.length_append]
    omega
  cases h with
  | missingArrow => exact le_rfl
  | missingLhs => omega
  | severalSymbols harrow hsecond =>
    have := hplace harrow hsecond
    omega
  | notVariable harrow _ hhere =>
    have := hplace harrow hhere
    omega

/-- The first fault has a position in 32 bits if the lines are few and short enough. -/
theorem FirstFault.lt {lines : List (List Char)} {reason : LoadError.Reason} {number column : Nat}
    (h : FirstFault lines reason number column) (hfew : lines.length < 2 ^ 32)
    (hshort : ∀ line ∈ lines, line.length + 1 < 2 ^ 32) :
    number < 2 ^ 32 ∧ column < 2 ^ 32 := by
  cases h with
  | noRules => decide
  | @line before after line _ _ hlines _ _ hfault _ =>
    subst hlines
    have hline := hshort line (by simp)
    have hcolumn := hfault.column_le
    rw [List.length_append, List.length_cons] at hfew
    omega

end Production

end ContextFree
