import ContextFree.Grammar.Printer
import ContextFree.Proofs.Grammar.Reader
import ContextFree.Proofs.Text.Lines

/-!
# Printing a grammar and reading it again

A rule of a grammar that was read is displayed as a line for one alternative
(`Grammar.toList_displayRule`), and that line says this alternative and nothing else
(`Production.says_line`), whatever characters it is made of. The lines of all rules therefore give
the alternatives without repetitions back, and since only the first time counts that an alternative
is added, reading them makes the same grammar again, symbol by symbol (`Grammar.load_display`).
-/

namespace ContextFree

/-- Lists that look the same in one way look the same in any way that this determines. -/
theorem map_eq_map_of_imp {α β γ δ : Type} {f : α → γ} {f' : β → γ} {h : α → δ} {h' : β → δ}
    {l : List α} {l' : List β} (heq : l.map f = l'.map f') (himp : ∀ a b, f a = f' b → h a = h' b) :
    l.map h = l'.map h' := by
  rw [← List.forall₂_eq_eq_eq, List.forall₂_map_left_iff, List.forall₂_map_right_iff] at heq ⊢
  exact heq.imp himp

namespace Text

/-- An uppercase letter is not blank. -/
theorem isBlank_of_isUpper {c : Char} (h : c.isUpper = true) : isBlank c = false := by
  have hrange : 65 ≤ c.toNat ∧ c.toNat ≤ 90 := by
    obtain ⟨hlow, hhigh⟩ : 'A'.val ≤ c.val ∧ c.val ≤ 'Z'.val := of_decide_eq_true h
    exact ⟨UInt32.le_iff_toNat_le.1 hlow, UInt32.le_iff_toNat_le.1 hhigh⟩
  unfold isBlank blankRanges
  simp only [List.any_cons, List.any_nil, Bool.or_false, Bool.or_eq_false_iff,
    Bool.and_eq_false_iff, decide_eq_false_iff_not]
  omega

/-- The text without the semicolons that stand at the end of a line. -/
def dropSemicolons : List Char → List Char
  | [] => []
  | ';' :: '\n' :: rest => '\n' :: dropSemicolons rest
  | c :: rest => c :: dropSemicolons rest

/-- Of a line that ends in a semicolon only this one is dropped, even if others stand before it. -/
theorem dropSemicolons_append {line : List Char} (h : '\n' ∉ line) (rest : List Char) :
    dropSemicolons (line ++ ';' :: '\n' :: rest) = line ++ '\n' :: dropSemicolons rest := by
  induction line with
  | nil => rfl
  | cons c line ih =>
    have hline : '\n' ∉ line := fun hmem => h (List.mem_cons_of_mem _ hmem)
    have hnext : ∀ tail, c = ';' → line ++ ';' :: '\n' :: rest = '\n' :: tail → False := by
      intro tail _ heq
      cases line with
      | nil => simp at heq
      | cons d line =>
        rw [List.cons_append, List.cons.injEq] at heq
        exact hline (by simp [heq.1])
    rw [List.cons_append, dropSemicolons.eq_3 c _ hnext, ih hline, List.cons_append]

/-- Lines that end in a semicolon lose it. -/
theorem dropSemicolons_flatMap {ls : List (List Char)} (h : ∀ line ∈ ls, '\n' ∉ line) :
    dropSemicolons (ls.flatMap (· ++ [';', '\n'])) = ls.flatMap (· ++ ['\n']) := by
  induction ls with
  | nil => rfl
  | cons line ls ih =>
    have hfirst := dropSemicolons_append (h line List.mem_cons_self) (ls.flatMap (· ++ [';', '\n']))
    rw [List.flatMap_cons, List.flatMap_cons, List.append_assoc, List.append_assoc,
      List.singleton_append, ← ih fun l hl => h l (List.mem_cons_of_mem _ hl)]
    exact hfirst

end Text

namespace Production

variable {e : Entry}

/-- The alternative is one that a line can give: the variable is an uppercase letter, and the
right-hand side is made of symbols other than the bar. -/
def Entry.IsPrintable (e : Entry) : Prop :=
  e.1.isUpper = true ∧ ∀ c ∈ e.2, isSymbol c = true ∧ c ≠ '|'

/-- The line for one alternative. -/
def Entry.line (e : Entry) : List Char :=
  e.1 :: ' ' :: '-' :: '>' :: ' ' :: if e.2 = [] then ['ε'] else e.2

/-- The characters behind the arrow of an alternative's line are the right-hand side. -/
theorem filter_isSymbol_line (h : Entry.IsPrintable e) :
    (' ' :: if e.2 = [] then ['ε'] else e.2).filter isSymbol = e.2 := by
  rw [List.filter_cons_of_neg (by decide)]
  by_cases hnil : e.2 = []
  · rw [if_pos hnil, hnil]
    rfl
  · rw [if_neg hnil, List.filter_eq_self]
    exact fun c hc => (h.2 c hc).1

/-- The line for an alternative says this alternative: its first arrow is the one written there,
since an uppercase letter and a blank stand before it. -/
theorem says_line (h : Entry.IsPrintable e) : Says (Entry.line e) ⟨e.1, [e.2]⟩ := by
  have harrow : splitArrow (Entry.line e) =
      some ([e.1, ' '], ' ' :: if e.2 = [] then ['ε'] else e.2) := by
    have hdash : e.1 ≠ '-' := by
      intro heq
      exact absurd (heq ▸ h.1) (by decide)
    have hsign : e.1 ≠ '→' := by
      intro heq
      exact absurd (heq ▸ h.1) (by decide)
    unfold Entry.line
    rw [splitArrow.eq_4 _ _ (fun _ hc => absurd hc hdash) hsign]
    rfl
  have hlhs : parseLhs [e.1, ' '] = .ok e.1 := by
    rw [parseLhs_eq_ok_iff]
    refine ⟨?_, h.1⟩
    unfold Text.signs
    rw [List.filter_cons_of_pos (by simp [Text.isBlank_of_isUpper h.1])]
    rfl
  have hbars : splitBars (' ' :: if e.2 = [] then ['ε'] else e.2) =
      [' ' :: if e.2 = [] then ['ε'] else e.2] := by
    rw [splitBars_eq_splitOn]
    refine List.splitOn_eq_singleton fun hmem => ?_
    rcases List.mem_cons.1 hmem with hblank | hmem
    · exact absurd hblank (by decide)
    · by_cases hnil : e.2 = []
      · rw [if_pos hnil] at hmem
        exact absurd hmem (by decide)
      · rw [if_neg hnil] at hmem
        exact (h.2 _ hmem).2 rfl
  rw [← parse_eq_ok_iff]
  unfold parse
  rw [harrow]
  simp only [hlhs, hbars, Except.map, List.map_cons, List.map_nil, filter_isSymbol_line h]

/-- The line for an alternative counts: it begins with a letter. -/
theorem isContent_line (h : Entry.IsPrintable e) : IsContent (Entry.line e) := by
  have hcomment : e.1 ≠ '#' := by
    intro heq
    exact absurd (heq ▸ h.1) (by decide)
  have hskip : Text.skipBlank (Entry.line e) = Entry.line e := by
    unfold Text.skipBlank Entry.line
    rw [List.dropWhile_cons_of_neg (by simp [Text.isBlank_of_isUpper h.1])]
  rw [← isSkipped_eq_false_iff]
  unfold isSkipped
  rw [hskip]
  exact beq_false_of_ne hcomment

/-- The line for an alternative holds no blank but spaces. -/
theorem not_mem_line (h : Entry.IsPrintable e) {c : Char} (hblank : Text.isBlank c = true)
    (hspace : c ≠ ' ') : c ∉ Entry.line e := by
  have hne : ∀ {d : Char}, Text.isBlank d = false → c ≠ d := by
    rintro d hd rfl
    rw [hblank] at hd
    exact absurd hd (by decide)
  have hbody : c ∉ if e.2 = [] then ['ε'] else e.2 := by
    by_cases hnil : e.2 = []
    · rw [if_pos hnil]
      simpa using hne (by decide)
    · rw [if_neg hnil]
      intro hmem
      have hsymbol := (h.2 c hmem).1
      unfold isSymbol at hsymbol
      rw [hblank] at hsymbol
      exact absurd hsymbol (by simp)
  unfold Entry.line
  simp only [List.mem_cons, not_or]
  exact ⟨hne (Text.isBlank_of_isUpper h.1), hspace, hne (by decide), hne (by decide), hspace, hbody⟩

/-- The line for an alternative holds no character that can end a line. -/
theorem isSingle_line (h : Entry.IsPrintable e) : Text.IsSingle (Entry.line e) :=
  ⟨not_mem_line h (by decide) (by decide), not_mem_line h (by decide) (by decide)⟩

/-- What a line says can be printed. -/
theorem Says.isPrintable {line : List Char} {production : Production} (h : Says line production) :
    ∀ e ∈ production.entries, Entry.IsPrintable e := by
  obtain ⟨hup, -, hsymbols⟩ := h.isUpper_and_isSymbol
  intro e he
  obtain ⟨alternative, hmem, rfl⟩ := List.mem_map.1 he
  exact ⟨hup, hsymbols alternative hmem⟩

end Production

open Production (Entry)

namespace Grammar

variable {g : Grammar} {text : String} {rule : Rule} {e : Entry} {entries : List Entry}

/-- Right-hand sides of symbols with one character each are displayed by these characters. -/
theorem toList_displayRhs (symbols : List Char) :
    (displayRhs (symbols.map Char.toString)).toList =
      if symbols = [] then ['ε'] else symbols := by
  unfold displayRhs
  by_cases hnil : symbols = []
  · rw [if_pos hnil, hnil]
    rfl
  · have hempty : ¬(symbols.map Char.toString).isEmpty = true := by simpa using hnil
    have hlength : (symbols.map Char.toString).all (·.length = 1) = true := by simp
    rw [if_neg hnil, if_neg hempty, if_pos hlength, String.toList_join, List.flatMap_map]
    simp

/-- A rule with the names of an alternative is displayed as the line for it. -/
theorem toList_displayRule (h : g.namedRule rule = Entry.spelled e) :
    (g.displayRule rule).toList = Entry.line e := by
  have hname : ∀ {s : Symbol} {c : Char}, g.symbols.name? s = some c.toString →
      g.symbols.nameOf s = c.toString := by
    intro s c hs
    unfold SymbolTable.nameOf
    rw [hs]
    rfl
  obtain ⟨hlhs, hrhs⟩ := Prod.mk.inj h
  have hrhs' : rule.rhs.map g.symbols.nameOf = e.2.map Char.toString := by
    exact map_eq_map_of_imp hrhs fun _ _ hs => hname hs
  unfold displayRule
  rw [hname hlhs, hrhs', String.toList_append, String.toList_append, toList_displayRhs]
  simp [Entry.line]

/-- The rules with the names of some alternatives are displayed as the lines for these. -/
theorem toList_displayRules (h : g.rules.map g.namedRule = entries.map Entry.spelled) :
    (g.rules.map g.displayRule).map String.toList = entries.map Entry.line := by
  rw [List.map_map]
  exact map_eq_map_of_imp h fun _ _ hrule => toList_displayRule hrule

/-- A grammar that was read is made of alternatives that can be printed, and its rules are named by
these alternatives in order. -/
theorem exists_entries_of_read (h : read text = .ok g) :
    ∃ entries, entries ≠ [] ∧ (∀ e ∈ entries, Entry.IsPrintable e) ∧
      g = entries.foldl addEntry empty ∧ g.rules.map g.namedRule = entries.map Entry.spelled := by
  obtain ⟨productions, hne, hsays, rfl⟩ := read_eq_ok_iff.1 h
  refine ⟨(productions.flatMap Production.entries).eraseDups, ?_, ?_, ?_, ?_⟩
  · obtain ⟨first, rest, rfl⟩ := List.exists_cons_of_ne_nil hne
    obtain ⟨line, hline⟩ := (Production.exists_says hsays).2 first List.mem_cons_self
    obtain ⟨alternative, hmem⟩ := List.exists_mem_of_ne_nil _ hline.isUpper_and_isSymbol.2.1
    refine List.ne_nil_of_mem (a := (first.lhs, alternative)) ?_
    rw [List.mem_eraseDups, List.flatMap_cons]
    exact List.mem_append_left _ (List.mem_map_of_mem hmem)
  · intro e he
    obtain ⟨production, hmem, hentry⟩ := List.mem_flatMap.1 (List.mem_eraseDups.1 he)
    obtain ⟨line, hline⟩ := (Production.exists_says hsays).2 production hmem
    exact hline.isPrintable e hentry
  · rw [foldl_addEntry_eraseDups]
  · exact (records_foldl_addEntry _).rules

/-- A text made of lines for alternatives is read as the grammar made of them. -/
theorem read_of_lines (hne : entries ≠ []) (hprint : ∀ e ∈ entries, Entry.IsPrintable e)
    (hlines : Text.lines text.toList = entries.map Entry.line) :
    read text = .ok (entries.foldl addEntry empty) := by
  rw [read_eq_ok_iff]
  refine ⟨entries.map fun e => ⟨e.1, [e.2]⟩, ?_, ?_, ?_⟩
  · simpa using hne
  · have hall : (entries.map Entry.line).filter (Production.IsContent ·) =
        entries.map Entry.line := by
      rw [List.filter_eq_self]
      intro line hmem
      obtain ⟨e, he, rfl⟩ := List.mem_map.1 hmem
      exact decide_eq_true (Production.isContent_line (hprint e he))
    rw [hlines, hall, List.forall₂_map_left_iff, List.forall₂_map_right_iff, List.forall₂_same]
    exact fun e he => Production.says_line (hprint e he)
  · rw [List.flatMap_map]
    simp [Production.entries]

/-- Displaying the rules of a grammar that was read, one on each line, and reading the lines gives
the same grammar, with the same symbols, names, terminals, rules and start. -/
theorem load_display (h : (load text).outcome = .ok g) :
    (load ("\n".intercalate (g.rules.map g.displayRule))).outcome = .ok g ∧
      (load (String.ofList (Text.dropSemicolons g.toBnf.toList))).outcome = .ok g := by
  rw [outcome_load] at h ⊢
  rw [outcome_load]
  obtain ⟨entries, hne, hprint, hg, hrules⟩ := exists_entries_of_read h
  have hdisplayed := toList_displayRules hrules
  have hsingle : ∀ line ∈ entries.map Entry.line, Text.IsSingle line := by
    intro line hmem
    obtain ⟨e, he, rfl⟩ := List.mem_map.1 hmem
    exact Production.isSingle_line (hprint e he)
  have hread : ∀ {printed : String}, Text.lines printed.toList = entries.map Entry.line →
      read printed = .ok g := by
    intro printed hlines
    rw [read_of_lines hne hprint hlines, ← hg]
  refine ⟨hread ?_, hread ?_⟩
  · rw [String.toList_intercalate, hdisplayed]
    refine Text.lines_intercalate hsingle fun line hmem => ?_
    obtain ⟨e, -, rfl⟩ := List.mem_map.1 hmem
    exact List.cons_ne_nil _ _
  · have hbnf : g.toBnf.toList = (entries.map Entry.line).flatMap (· ++ [';', '\n']) := by
      unfold toBnf
      rw [String.toList_join, ← hdisplayed]
      simp [List.flatMap_map]
    rw [String.toList_ofList, hbnf,
      Text.dropSemicolons_flatMap fun line hmem => (hsingle line hmem).1]
    exact Text.lines_flatMap hsingle

/-- Arrows, a number sign and a semicolon can all be terminals, and a repeated alternative is
printed once. -/
theorem load_display_arrows :
    ∃ g, (load "S -> S->;|#→| ε\nS → # →").outcome = .ok g ∧
      "\n".intercalate (g.rules.map g.displayRule) = "S -> S->;\nS -> #→\nS -> ε" ∧
      (load "S -> S->;\nS -> #→\nS -> ε").outcome = .ok g ∧
      (load (String.ofList (Text.dropSemicolons g.toBnf.toList))).outcome = .ok g := by
  have hprinted : (load "S -> S->;|#→| ε\nS → # →").outcome.toOption.any (fun g =>
      decide ("\n".intercalate (g.rules.map g.displayRule) =
        "S -> S->;\nS -> #→\nS -> ε")) = true := by
    decide +kernel
  obtain ⟨g, hg, hlines⟩ := Run.exists_eq_ok_of_any hprinted
  have hprint := of_decide_eq_true hlines
  have hreload := load_display hg
  rw [hprint] at hreload
  exact ⟨g, hg, hprint, hreload.1, hreload.2⟩

end Grammar

end ContextFree
