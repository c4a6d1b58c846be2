import ContextFree.Grammar.Tokens
import ContextFree.Proofs.Grammar.Reload
import Mathlib.Data.Set.List

/-!
# The symbols of a grammar that is read

Every symbol of a grammar that is read was made for a character of some alternative: it is found
under this character, is a variable exactly when the character is an uppercase letter, and stands in
the rule of the alternative (`Grammar.Lettered`). This holds after each alternative that is added
(`Grammar.Lettered.addEntry`), so names tell symbols apart and a text stands for at most one list of
terminals: splitting a text into tokens is the inverse of writing down their names
(`Grammar.Lettered.tokenize_eq_iff`). `Grammar.load_alphabet` puts this together for every text that
can be read.
-/

namespace ContextFree

namespace Production

/-- The character can name a symbol: it is not blank, does not stand for the empty right-hand side
and does not separate alternatives. -/
def IsLetter (c : Char) : Prop := Text.isBlank c = false ∧ c ≠ 'ε' ∧ c ≠ 'λ' ∧ c ≠ '|'

/-- The symbols of a right-hand side, other than the bar, are letters. -/
theorem isLetter_of_isSymbol {c : Char} (h : isSymbol c = true) (hbar : c ≠ '|') : IsLetter c := by
  unfold isSymbol at h
  simp only [Bool.and_eq_true, Bool.not_eq_true', bne_iff_ne] at h
  exact ⟨h.1.1, h.1.2, h.2, hbar⟩

/-- An uppercase letter is a letter. -/
theorem isLetter_of_isUpper {c : Char} (h : c.isUpper = true) : IsLetter c := by
  have hne : ∀ d : Char, d.isUpper = false → c ≠ d := by
    rintro d hd rfl
    rw [h] at hd
    exact absurd hd (by decide)
  exact ⟨Text.isBlank_of_isUpper h, hne _ (by decide), hne _ (by decide), hne _ (by decide)⟩

/-- The characters of an alternative that can be printed are letters. -/
theorem Entry.IsPrintable.isLetter {e : Entry} (h : Entry.IsPrintable e) :
    ∀ c ∈ e.1 :: e.2, IsLetter c := by
  intro c hc
  rcases List.mem_cons.1 hc with rfl | hc
  · exact isLetter_of_isUpper h.1
  · exact isLetter_of_isSymbol (h.2 c hc).1 (h.2 c hc).2

end Production

open Production (Entry IsLetter)

namespace Grammar

variable {g g' : Grammar} {c : Char} {s : Symbol} {text : String} {e : Entry}

/-! ## Symbols that are made -/

/-- The character names the symbol, which is of the kind that the character says: a variable for an
uppercase letter and a terminal otherwise. -/
def Names (g : Grammar) (c : Char) (s : Symbol) : Prop :=
  g.symbols.Denotes c s ∧ g.isTerminal s = !c.isUpper

/-- The name of a symbol is the character that names it. -/
theorem Names.name? (h : g.Names c s) : g.symbols.name? s = some c.toString :=
  SymbolTable.name?_of_find? h.1

/-- The name and the kind of a symbol stay. -/
theorem Names.keeps (h : g.Names c s) (hkeeps : g.Keeps g') : g'.Names c s :=
  ⟨h.1.mono hkeeps.symbols,
    (hkeeps.isTerminal s (SymbolTable.lt_size_of_name? h.name?)).trans h.2⟩

/-- A symbol that is made for a character is the one that it names, and of the kind it says. -/
theorem names_of_intern (hg : g.WellFormed) (hold : g.symbols.size ≤ s.id)
    (hnew : s.id < (g.intern c).2.symbols.size) :
    s = (g.intern c).1 ∧ (g.intern c).2.Names c s := by
  have hdenotes := (intern_spec g c).2.2.2
  cases hfind : g.symbols.find? c.toString with
  | some s' =>
    rw [intern_of_denotes hfind] at hnew
    exact absurd hnew (Nat.not_lt.2 hold)
  | none =>
    have hintern : g.intern c = (g.next,
        if c.isUpper then g.addVariable (some c.toString) else g.addTerminal c.toString) := by
      unfold intern
      rw [hfind]
    have hsymbols : (g.intern c).2.symbols = g.symbols.add (some c.toString) := by
      rw [hintern]
      by_cases hc : c.isUpper = true
      · simp only [hc, if_true, addVariable]
      · simp only [hc, addTerminal]
        rfl
    rw [hsymbols, SymbolTable.size_add] at hnew
    obtain rfl : s = g.next := Symbol.ext (Nat.eq_of_le_of_lt_succ hold hnew)
    rw [hintern] at hdenotes ⊢
    refine ⟨rfl, hdenotes, ?_⟩
    by_cases hc : c.isUpper = true
    · -- A symbol that was not made yet is no terminal.
      simp only [hc, if_true, Bool.not_true]
      rw [← Bool.not_eq_true]
      intro hterminal
      exact absurd (hg.terminals _ hterminal) (Nat.lt_irrefl _)
    · simp only [hc, Bool.not_false]
      exact isTerminal_iff.2 (SymbolSet.mem_insert.2 (.inl rfl))

/-- A symbol that is made for the characters of a list is named by one of them. -/
theorem names_of_internAll {chars : List Char} (hg : g.WellFormed)
    (hold : g.symbols.size ≤ s.id) (hnew : s.id < (g.internAll chars).2.symbols.size) :
    s ∈ (g.internAll chars).1 ∧ ∃ c ∈ chars, (g.internAll chars).2.Names c s := by
  induction chars generalizing g with
  | nil => exact absurd hnew (Nat.not_lt.2 hold)
  | cons c chars ih =>
    have hfirst := (intern_spec g c).1
    have hrest := (internAll_spec (g.intern c).2 chars).1
    rcases Nat.lt_or_ge s.id (g.intern c).2.symbols.size with hlt | hge
    · obtain ⟨hs, hnames⟩ := names_of_intern hg hold hlt
      exact ⟨List.mem_cons.2 (.inl hs), c, List.mem_cons_self, hnames.keeps hrest⟩
    · obtain ⟨hs, c', hc', hnames⟩ := ih (hfirst.wellFormed hg) hge hnew
      exact ⟨List.mem_cons_of_mem _ hs, c', List.mem_cons_of_mem _ hc', hnames⟩

/-- A symbol that is made for an alternative is named by one of its characters and stands in its
rule. -/
theorem names_of_addEntry (hg : g.WellFormed) (hold : g.symbols.size ≤ s.id)
    (hnew : s.id < (g.addEntry e).symbols.size) :
    (∃ c ∈ e.1 :: e.2, (g.addEntry e).Names c s) ∧
      ∃ rule ∈ (g.addEntry e).rules, s ∈ rule.lhs :: rule.rhs := by
  have hlhs := keeps_withLhs g e.1
  have hrhs := (internAll_spec (g.withLhs e.1) e.2).1
  have hwell := hlhs.wellFormed ((intern_spec g e.1).1.wellFormed hg)
  rw [addEntry_eq_addRule] at hnew ⊢
  have hrule := keeps_addRule ((g.withLhs e.1).internAll e.2).2
    ⟨(g.intern e.1).1, ((g.withLhs e.1).internAll e.2).1⟩
  rw [symbols_addRule] at hnew
  rcases Nat.lt_or_ge s.id (g.intern e.1).2.symbols.size with hlt | hge
  · obtain ⟨hs, hnames⟩ := names_of_intern hg hold hlt
    exact ⟨⟨e.1, List.mem_cons_self, ((hnames.keeps hlhs).keeps hrhs).keeps hrule⟩, _,
      mem_rules_addRule.2 (.inr rfl), List.mem_cons.2 (.inl hs)⟩
  · obtain ⟨hs, c, hc, hnames⟩ := names_of_internAll hwell hge hnew
    exact ⟨⟨c, List.mem_cons_of_mem _ hc, hnames.keeps hrule⟩, _,
      mem_rules_addRule.2 (.inr rfl), List.mem_cons_of_mem _ hs⟩

/-! ## The symbols of a grammar -/

/-- Every symbol is named by a letter and stands in a rule, and the terminals are symbols. -/
structure Lettered (g : Grammar) : Prop where
  /-- The rules are distinct, and terminals are symbols of the grammar. -/
  wellFormed : g.WellFormed
  /-- A letter names the symbol and says of which kind it is. -/
  names : ∀ s, s.id < g.symbols.size → ∃ c, IsLetter c ∧ g.Names c s
  /-- The symbol is in use. -/
  used : ∀ s, s.id < g.symbols.size → ∃ rule ∈ g.rules, s ∈ rule.lhs :: rule.rhs

/-- Adding an alternative that can be printed keeps all symbols named and in use. -/
theorem Lettered.addEntry (h : g.Lettered) (he : Entry.IsPrintable e) :
    (g.addEntry e).Lettered := by
  have hkeeps := keeps_addEntry g e
  refine ⟨hkeeps.wellFormed h.wellFormed, fun s hs => ?_, fun s hs => ?_⟩
  · rcases Nat.lt_or_ge s.id g.symbols.size with hlt | hge
    · obtain ⟨c, hc, hnames⟩ := h.names s hlt
      exact ⟨c, hc, hnames.keeps hkeeps⟩
    · obtain ⟨⟨c, hc, hnames⟩, -⟩ := names_of_addEntry h.wellFormed hge hs
      exact ⟨c, he.isLetter c hc, hnames⟩
  · rcases Nat.lt_or_ge s.id g.symbols.size with hlt | hge
    · obtain ⟨rule, hm, hrule⟩ := h.used s hlt
      obtain ⟨made, added, hmade, heq⟩ := exists_addEntry_eq g e
      refine ⟨rule, ?_, hrule⟩
      rw [heq, mem_rules_addRule, hmade.rules]
      exact .inl hm
    · exact (names_of_addEntry h.wellFormed hge hs).2

/-- Alternatives that can be printed make a grammar whose symbols are all named and in use. -/
theorem lettered_foldl_addEntry {entries : List Entry}
    (h : ∀ e ∈ entries, Entry.IsPrintable e) : (entries.foldl addEntry empty).Lettered := by
  induction entries using List.reverseRecOn with
  | nil =>
    exact ⟨Built.empty.wellFormed, fun s hs => absurd hs (Nat.not_lt_zero _),
      fun s hs => absurd hs (Nat.not_lt_zero _)⟩
  | append_singleton entries e ih =>
    rw [List.foldl_append]
    exact (ih fun e' he' => h e' (List.mem_append_left _ he')).addEntry (h e (by simp))

namespace Lettered

/-- A symbol is the only one with its name. -/
theorem eq_of_name? {s' : Symbol} (h : g.Lettered) (hs : s.id < g.symbols.size)
    (hs' : s'.id < g.symbols.size) (hname : g.symbols.name? s = g.symbols.name? s') : s = s' := by
  obtain ⟨c, -, hc⟩ := h.names s hs
  obtain ⟨c', -, hc'⟩ := h.names s' hs'
  rw [hc.name?, hc'.name?, Option.some_inj] at hname
  have hfind : g.symbols.find? c.toString = some s' := hname ▸ hc'.1
  exact Option.some.inj (hc.1.symm.trans hfind)

/-- A character stands for a terminal exactly when it is its name. -/
theorem terminalFor?_eq_some_iff (h : g.Lettered) :
    g.terminalFor? c = some s ↔ g.isTerminal s = true ∧ g.symbols.name? s = some c.toString := by
  constructor
  · intro hfind
    refine ⟨isTerminal_iff.2 (List.mem_of_find?_eq_some hfind), ?_⟩
    simpa using List.find?_some hfind
  · rintro ⟨hterminal, hname⟩
    -- Some terminal has the name, and there is no other symbol with it.
    have hsome : (g.terminalFor? c).isSome = true := by
      rw [terminalFor?, List.find?_isSome]
      exact ⟨s, isTerminal_iff.1 hterminal, by simp [hname]⟩
    obtain ⟨s', hfind⟩ := Option.isSome_iff_exists.1 hsome
    have hname' : g.symbols.name? s' = some c.toString := by simpa using List.find?_some hfind
    have hterminal' : g.isTerminal s' = true :=
      isTerminal_iff.2 (List.mem_of_find?_eq_some hfind)
    rw [hfind, h.eq_of_name? (h.wellFormed.terminals s hterminal)
      (h.wellFormed.terminals s' hterminal') (hname.trans hname'.symm)]

/-- A symbol named by a character is of the kind that the character says. -/
theorem isTerminal_of_name? (h : g.Lettered) (hname : g.symbols.name? s = some c.toString) :
    g.isTerminal s = !c.isUpper := by
  obtain ⟨c', -, hc'⟩ := h.names s (SymbolTable.lt_size_of_name? hname)
  rw [hc'.name?, Option.some_inj] at hname
  obtain rfl := String.singleton_inj.1 hname
  exact hc'.2

/-- A terminal is written as the character that stands for it. -/
theorem exists_terminalFor? (h : g.Lettered) (hs : g.isTerminal s = true) :
    ∃ c, (g.symbols.nameOf s).toList = [c] ∧ g.terminalFor? c = some s := by
  obtain ⟨c, -, hc⟩ := h.names s (h.wellFormed.terminals s hs)
  refine ⟨c, ?_, h.terminalFor?_eq_some_iff.2 ⟨hs, hc.name?⟩⟩
  rw [SymbolTable.nameOf, hc.name?, Option.getD_some]
  exact String.toList_singleton c

/-- Characters stand for terminals exactly when they are written as these. -/
theorem map_terminalFor?_eq_iff (h : g.Lettered) {chars : List Char} {tokens : List Symbol} :
    chars.map g.terminalFor? = tokens.map some ↔
      (∀ s ∈ tokens, g.isTerminal s = true) ∧
        tokens.flatMap (fun s => (g.symbols.nameOf s).toList) = chars := by
  induction tokens generalizing chars with
  | nil =>
    rw [List.map_nil, List.map_eq_nil_iff, List.flatMap_nil]
    exact ⟨fun hnil => ⟨fun s hs => absurd hs List.not_mem_nil, hnil.symm⟩, fun hnil => hnil.2.symm⟩
  | cons s tokens ih =>
    rw [List.map_cons, List.forall_mem_cons, List.flatMap_cons]
    constructor
    · intro hmap
      obtain ⟨c, chars, rfl, hfind, hrest⟩ := List.map_eq_cons_iff.1 hmap
      obtain ⟨hterminals, hwritten⟩ := ih.1 hrest
      obtain ⟨hs, hname⟩ := h.terminalFor?_eq_some_iff.1 hfind
      refine ⟨⟨hs, hterminals⟩, ?_⟩
      rw [hwritten, SymbolTable.nameOf, hname]
      simp
    · rintro ⟨⟨hs, hterminals⟩, rfl⟩
      obtain ⟨c, hwritten, hfind⟩ := h.exists_terminalFor? hs
      rw [hwritten, List.singleton_append, List.map_cons, hfind, ih.2 ⟨hterminals, rfl⟩]

/-- A text stands for terminals exactly when it is made of their names. -/
theorem tokenize_eq_iff (h : g.Lettered) {tokens : List Symbol} :
    g.tokenize text = tokens.map some ↔
      (∀ s ∈ tokens, g.isTerminal s = true) ∧
        String.join (tokens.map g.symbols.nameOf) = text := by
  rw [tokenize, h.map_terminalFor?_eq_iff, ← String.toList_inj, String.toList_join,
    List.flatMap_map]

/-- A text without characters that stand for nothing is made of the names of terminals. -/
theorem exists_tokens (h : g.Lettered)
    (hall : ∀ token ∈ g.tokenize text, token.isSome = true) :
    ∃ tokens : List Symbol, g.tokenize text = tokens.map some ∧
      String.join (tokens.map g.symbols.nameOf) = text := by
  have hrange : g.tokenize text ∈ Set.range (List.map some) := by
    rw [Set.range_list_map]
    intro token htoken
    obtain ⟨s, hs⟩ := Option.isSome_iff_exists.1 (hall token htoken)
    exact ⟨s, hs.symm⟩
  obtain ⟨tokens, htokens⟩ := hrange
  exact ⟨tokens, htokens.symm, (h.tokenize_eq_iff.1 htokens.symm).2⟩

/-- A grammar that records alternatives with uppercase letters for variables is valid. -/
theorem valid (h : g.Lettered) {entries : List Entry} (hrecords : g.Records (e :: entries))
    (hprint : ∀ e' ∈ e :: entries, Entry.IsPrintable e') : g.Valid := by
  have hupper : ∀ {s e'}, Entry.IsPrintable e' → g.symbols.name? s = some e'.1.toString →
      g.knows s = true ∧ g.isTerminal s = false := by
    intro s e' he' hname
    refine ⟨knows_iff.2 (SymbolTable.lt_size_of_name? hname), ?_⟩
    rw [h.isTerminal_of_name? hname, he'.1]
    rfl
  -- The names of a rule are those of an alternative.
  have hnamed : ∀ rule ∈ g.rules, ∃ e' ∈ e :: entries, g.namedRule rule = Entry.spelled e' := by
    intro rule hm
    obtain ⟨e', he', hspelled⟩ := List.mem_map.1 (hrecords.rules ▸ List.mem_map_of_mem hm)
    exact ⟨e', List.mem_eraseDups.1 he', hspelled.symm⟩
  refine ⟨?_, fun rule hm => ?_, fun rule hm s hs => ?_⟩
  · obtain ⟨start, hstart, hname⟩ := Option.bind_eq_some_iff.1 hrecords.name?_start
    exact ⟨start, hstart, hupper (hprint e List.mem_cons_self) hname⟩
  · obtain ⟨e', he', hspelled⟩ := hnamed rule hm
    exact hupper (hprint e' he') (Prod.mk.inj hspelled).1
  · obtain ⟨e', he', hspelled⟩ := hnamed rule hm
    obtain ⟨c, -, hname⟩ := List.mem_map.1 ((Prod.mk.inj hspelled).2 ▸ List.mem_map_of_mem hs)
    exact knows_iff.2 (SymbolTable.lt_size_of_name? hname.symm)

end Lettered

/-- A grammar that is read is valid and has no rule twice. Each of its symbols stands in a rule and
has a name of its own, which is a single letter; it is a variable exactly when this is an uppercase
letter. A text stands for terminals throughout exactly when each of its characters is the name of
one. It is then made of the names of these terminals, and every list of terminals is what the text
of their names stands for. -/
theorem load_alphabet (h : (load text).outcome = .ok g) :
    g.validate = .ok () ∧ g.rules.Nodup ∧
      (∀ s, g.knows s = true →
        (∃ c, g.symbols.name? s = some c.toString ∧ IsLetter c ∧
          (g.isVariable s = true ↔ c.isUpper = true)) ∧
        (∀ s', g.knows s' = true → g.symbols.name? s = g.symbols.name? s' → s = s') ∧
        ∃ rule ∈ g.rules, s ∈ rule.lhs :: rule.rhs) ∧
      (∀ input : String,
        ((∀ token ∈ g.tokenize input, token.isSome = true) ↔
          ∀ c ∈ input.toList, ∃ s, g.isTerminal s = true ∧
            g.symbols.name? s = some c.toString) ∧
        ((∀ token ∈ g.tokenize input, token.isSome = true) →
          ∃ tokens : List Symbol, g.tokenize input = tokens.map some ∧
            String.join (tokens.map g.symbols.nameOf) = input)) ∧
      ∀ tokens : List Symbol, (∀ s ∈ tokens, g.isTerminal s = true) →
        g.tokenize (String.join (tokens.map g.symbols.nameOf)) = tokens.map some := by
  rw [outcome_load] at h
  obtain ⟨entries, hne, hprint, hfold, -⟩ := exists_entries_of_read h
  have hg : g.Lettered := hfold ▸ lettered_foldl_addEntry hprint
  have hrecords : g.Records entries := hfold ▸ records_foldl_addEntry entries
  obtain ⟨e, entries, rfl⟩ := List.exists_cons_of_ne_nil hne
  refine ⟨validate_eq_ok_iff.2 (hg.valid hrecords hprint), hg.wellFormed.nodup, fun s hs => ?_,
    fun input => ⟨?_, fun hall => ?_⟩, fun tokens hterminals => ?_⟩
  · have hlt := knows_iff.1 hs
    obtain ⟨c, hletter, hnames⟩ := hg.names s hlt
    refine ⟨⟨c, hnames.name?, hletter, ?_⟩, fun s' hs' => hg.eq_of_name? hlt (knows_iff.1 hs'),
      hg.used s hlt⟩
    rw [isVariable, hnames.2, Bool.not_not]
  · simp only [tokenize, List.forall_mem_map, Option.isSome_iff_exists,
      hg.terminalFor?_eq_some_iff]
  · exact hg.exists_tokens hall
  · exact hg.tokenize_eq_iff.2 ⟨hterminals, rfl⟩

/-- Behind the first arrow of a line an arrow is a terminal like any other, and it has a name of its
own. -/
theorem load_alphabet_arrow :
    ∃ g, (load "S -> aSé | # → T\nT -> ε").outcome = .ok g ∧ g.validate = .ok () ∧
      g.rules.Nodup ∧ g.knows ⟨4⟩ = true ∧ g.symbols.name? ⟨4⟩ = some "→" ∧
      (∃ c, g.symbols.name? ⟨4⟩ = some c.toString ∧ IsLetter c ∧
        (g.isVariable ⟨4⟩ = true ↔ c.isUpper = true)) ∧
      (∀ s', g.knows s' = true → g.symbols.name? ⟨4⟩ = g.symbols.name? s' → ⟨4⟩ = s') ∧
      (∃ rule ∈ g.rules, ⟨4⟩ ∈ rule.lhs :: rule.rhs) ∧
      (∀ s ∈ [⟨2⟩, ⟨4⟩, ⟨1⟩], g.isTerminal s = true) ∧
      g.tokenize "é→a" = [some ⟨2⟩, some ⟨4⟩, some ⟨1⟩] := by
  have hfacts : (load "S -> aSé | # → T\nT -> ε").outcome.toOption.any (fun g =>
      decide (g.knows ⟨4⟩ = true ∧ g.symbols.name? ⟨4⟩ = some "→" ∧
        (∀ s ∈ ([⟨2⟩, ⟨4⟩, ⟨1⟩] : List Symbol), g.isTerminal s = true) ∧
        String.join (([⟨2⟩, ⟨4⟩, ⟨1⟩] : List Symbol).map g.symbols.nameOf) = "é→a")) = true := by
    decide +kernel
  obtain ⟨g, hg, hdecided⟩ := Run.exists_eq_ok_of_any hfacts
  obtain ⟨hknows, hname, hterminals, hwritten⟩ := of_decide_eq_true hdecided
  obtain ⟨hvalid, hnodup, hsymbols, -, htokens⟩ := load_alphabet hg
  obtain ⟨hletter, hunique, hused⟩ := hsymbols ⟨4⟩ hknows
  have htext := htokens [⟨2⟩, ⟨4⟩, ⟨1⟩] hterminals
  rw [hwritten] at htext
  exact ⟨g, hg, hvalid, hnodup, hknows, hname, hletter, hunique, hused, hterminals, htext⟩

end Grammar

end ContextFree
