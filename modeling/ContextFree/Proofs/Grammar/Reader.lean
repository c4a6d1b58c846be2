import ContextFree.Proofs.Grammar.Identity
import ContextFree.Proofs.Grammar.Production
import ContextFree.Proofs.Run
import ContextFree.Proofs.Text.Lines

/-!
# The grammar that is read

A line adds its alternatives one by one (`Grammar.addProduction_eq_foldl`), and adding one that was
added before changes nothing (`Grammar.Holds.addEntry_eq`), so a grammar is made of its alternatives
without repetitions (`Grammar.foldl_addEntry_eraseDups`). By the names of their symbols its rules
are these alternatives in order, and its start is the first variable (`Grammar.Records`). Together
with what `Production.parseLines` finds this says for every text whether a grammar can be read from
it, which grammar it is, and otherwise where the text is at fault (`Grammar.load_exact`). The
position of a fault is exact as long as 32 bits suffice for it.
-/

namespace ContextFree

/-- Adding an element at the end of a list adds it to the elements without repetitions, unless it is
among them. -/
theorem eraseDups_concat {α : Type} [BEq α] [LawfulBEq α] (l : List α) (a : α) :
    (l ++ [a]).eraseDups = if a ∈ l then l.eraseDups else l.eraseDups ++ [a] := by
  rw [List.eraseDups_append]
  by_cases h : a ∈ l
  · rw [if_pos h]
    simp [List.removeAll, h]
  · rw [if_neg h]
    simp [List.removeAll, h, List.eraseDups_cons]

/-- The character names the symbol. -/
def SymbolTable.Denotes (t : SymbolTable) (c : Char) (s : Symbol) : Prop :=
  t.find? c.toString = some s

/-- What a character names in a table, it names in a table that extends it. -/
theorem SymbolTable.Denotes.mono {t t' : SymbolTable} {c : Char} {s : Symbol} (h : t.Denotes c s)
    (ht : t.Extends t') : t'.Denotes c s :=
  ht.find?_eq_some h

namespace Production

/-- One alternative of a line: a variable and a right-hand side, character by character. -/
abbrev Entry := Char × List Char

/-- The alternatives of a line, each with the variable. -/
def entries (production : Production) : List Entry :=
  production.alternatives.map fun alternative => (production.lhs, alternative)

/-- The names of the variable and of the symbols on the right-hand side. -/
def Entry.spelled (entry : Entry) : Option String × List (Option String) :=
  (some entry.1.toString, entry.2.map fun c => some c.toString)

/-- Alternatives with the same names are the same. -/
theorem Entry.eq_of_spelled_eq {e e' : Entry} (h : Entry.spelled e = Entry.spelled e') :
    e = e' := by
  have hinj : Function.Injective fun c : Char => some c.toString := by
    intro c d hcd
    exact String.singleton_inj.1 (Option.some.inj hcd)
  obtain ⟨hlhs, hrhs⟩ := Prod.mk.inj h
  exact Prod.ext (hinj hlhs) (List.map_injective_iff.2 hinj hrhs)

end Production

open Production (Entry)

namespace Grammar

variable {g made : Grammar} {c : Char} {s : Symbol} {rule : Rule} {e e' : Entry}

/-! ## Symbols for characters -/

/-- A character that names a symbol makes no other. -/
theorem intern_of_denotes (h : g.symbols.Denotes c s) : g.intern c = (s, g) := by
  unfold SymbolTable.Denotes at h
  unfold intern
  rw [h]

/-- The character names the symbol made for it, and nothing but symbols is made. -/
theorem intern_spec (g : Grammar) (c : Char) :
    g.Keeps (g.intern c).2 ∧ (g.intern c).2.rules = g.rules ∧
      (g.intern c).2.start = g.start ∧ (g.intern c).2.symbols.Denotes c (g.intern c).1 := by
  cases h : g.symbols.find? c.toString with
  | some s =>
    rw [intern_of_denotes h]
    exact ⟨.refl _, rfl, rfl, h⟩
  | none =>
    have hfind := SymbolTable.find?_add_next h
    unfold intern
    rw [h]
    by_cases hc : c.isUpper = true
    · simp only [hc, if_true]
      exact ⟨g.keeps_addVariable _, rfl, rfl, hfind⟩
    · simp only [hc]
      exact ⟨g.keeps_addTerminal _, rfl, rfl, hfind⟩

/-- Characters that name symbols make no others. -/
theorem internAll_of_denotes {text : List Char} {symbols : List Symbol}
    (h : List.Forall₂ g.symbols.Denotes text symbols) : g.internAll text = (symbols, g) := by
  induction h with
  | nil => rfl
  | cons hc _ ih =>
    unfold internAll
    simp only [intern_of_denotes hc, ih]

/-- The characters name the symbols made for them, and nothing but symbols is made. -/
theorem internAll_spec (g : Grammar) (text : List Char) :
    g.Keeps (g.internAll text).2 ∧ (g.internAll text).2.rules = g.rules ∧
      (g.internAll text).2.start = g.start ∧
      List.Forall₂ (g.internAll text).2.symbols.Denotes text (g.internAll text).1 := by
  induction text generalizing g with
  | nil => exact ⟨.refl _, rfl, rfl, .nil⟩
  | cons c rest ih =>
    obtain ⟨hkeeps, hrules, hstart, hc⟩ := intern_spec g c
    obtain ⟨hkeeps', hrules', hstart', hrest⟩ := ih (g.intern c).2
    exact ⟨hkeeps.trans hkeeps', hrules'.trans hrules, hstart'.trans hstart,
      .cons (hc.mono hkeeps'.symbols) hrest⟩

/-! ## Adding alternatives -/

/-- Adds the rule of one alternative. -/
def addEntry (g : Grammar) (e : Entry) : Grammar := g.addProduction ⟨e.1, [e.2]⟩

/-- The grammar just before the rule of an alternative is added: the characters of the alternative
name the symbols of the rule. -/
structure Interned (g : Grammar) (e : Entry) (made : Grammar) (rule : Rule) : Prop where
  /-- The symbols that were there keep their identity. -/
  keeps : g.Keeps made
  /-- No rule was added. -/
  rules : made.rules = g.rules
  /-- The first variable is the start. -/
  start : made.start = some (g.start.getD rule.lhs)
  /-- The left-hand side is the symbol of the variable. -/
  eq_intern : rule.lhs = (g.intern e.1).1
  /-- The variable names the left-hand side. -/
  lhs : made.symbols.Denotes e.1 rule.lhs
  /-- The characters name the right-hand side. -/
  rhs : List.Forall₂ made.symbols.Denotes e.2 rule.rhs

/-- The grammar with a symbol for the variable of a line, which is the start if there was none. -/
def withLhs (g : Grammar) (c : Char) : Grammar :=
  { (g.intern c).2 with start := some ((g.intern c).2.start.getD (g.intern c).1) }

theorem keeps_withLhs (g : Grammar) (c : Char) : (g.intern c).2.Keeps (g.withLhs c) :=
  .of_terminals (.refl _) rfl id

/-- An alternative is added by naming its variable, then its other symbols, and adding its rule. -/
theorem addEntry_eq_addRule (g : Grammar) (e : Entry) :
    g.addEntry e = ((g.withLhs e.1).internAll e.2).2.addRule
      ⟨(g.intern e.1).1, ((g.withLhs e.1).internAll e.2).1⟩ :=
  rfl

/-- Adding an alternative makes its symbols and then adds its rule. -/
theorem exists_addEntry_eq (g : Grammar) (e : Entry) :
    ∃ made rule, Interned g e made rule ∧ g.addEntry e = made.addRule rule := by
  obtain ⟨hkeeps, hrules, hstart, hlhs⟩ := intern_spec g e.1
  obtain ⟨hkeeps', hrules', hstart', hrhs⟩ := internAll_spec (g.withLhs e.1) e.2
  refine ⟨_, _, ⟨hkeeps.trans ((keeps_withLhs g e.1).trans hkeeps'), hrules'.trans hrules, ?_, rfl,
    hlhs.mono hkeeps'.symbols, hrhs⟩, addEntry_eq_addRule g e⟩
  rw [hstart', ← hstart]
  rfl

/-- Adding an alternative keeps the symbols that were there. -/
theorem keeps_addEntry (g : Grammar) (e : Entry) : g.Keeps (g.addEntry e) := by
  obtain ⟨made, rule, hmade, heq⟩ := exists_addEntry_eq g e
  rw [heq]
  exact hmade.keeps.trans (made.keeps_addRule rule)

/-- The grammar has the rule of the alternative, and a start symbol. -/
structure Holds (g : Grammar) (e : Entry) : Prop where
  /-- There is a start symbol. -/
  start : ∃ s, g.start = some s
  /-- The characters of the alternative name the symbols of a rule. -/
  rule : ∃ rule ∈ g.rules, g.symbols.Denotes e.1 rule.lhs ∧
    List.Forall₂ g.symbols.Denotes e.2 rule.rhs

/-- An alternative is there once it was added. -/
theorem holds_addEntry (g : Grammar) (e : Entry) : (g.addEntry e).Holds e := by
  obtain ⟨made, rule, hmade, heq⟩ := exists_addEntry_eq g e
  rw [heq]
  refine ⟨⟨_, (start_addRule made rule).trans hmade.start⟩, rule, by simp, ?_⟩
  rw [symbols_addRule]
  exact ⟨hmade.lhs, hmade.rhs⟩

/-- An alternative stays when another one is added. -/
theorem Holds.addEntry (h : g.Holds e) (e' : Entry) : (g.addEntry e').Holds e := by
  obtain ⟨made, rule', hmade, heq⟩ := exists_addEntry_eq g e'
  obtain ⟨rule, hmem, hlhs, hrhs⟩ := h.rule
  rw [heq]
  refine ⟨⟨_, (start_addRule made rule').trans hmade.start⟩, rule, ?_, ?_⟩
  · rw [mem_rules_addRule, hmade.rules]
    exact .inl hmem
  · rw [symbols_addRule]
    exact ⟨hlhs.mono hmade.keeps.symbols, hrhs.imp fun _ _ hc => hc.mono hmade.keeps.symbols⟩

/-- A line for a variable that is there, with a start symbol, only adds its alternatives. -/
theorem addProduction_of_denotes (hs : g.symbols.Denotes c s) (hstart : ∃ s, g.start = some s)
    (alternatives : List (List Char)) :
    g.addProduction ⟨c, alternatives⟩ = g.addAlternatives s alternatives := by
  obtain ⟨start, hstart⟩ := hstart
  have hsame : ({ g with start := some (g.start.getD s) } : Grammar) = g := by
    rw [hstart, Option.getD_some, ← hstart]
  unfold addProduction
  simp only [intern_of_denotes hs, hsame]

/-- Adding an alternative that is there changes nothing. -/
theorem Holds.addEntry_eq (h : g.Holds e) : g.addEntry e = g := by
  obtain ⟨rule, hmem, hlhs, hrhs⟩ := h.rule
  unfold Grammar.addEntry
  rw [addProduction_of_denotes hlhs h.start]
  simp only [addAlternatives, internAll_of_denotes hrhs]
  rw [addRule_eq, if_pos hmem]

/-- A line adds its first alternative and then what a line with the others adds. -/
theorem addProduction_cons (g : Grammar) (c : Char) (alternative : List Char)
    (rest : List (List Char)) :
    g.addProduction ⟨c, alternative :: rest⟩ =
      (g.addEntry (c, alternative)).addProduction ⟨c, rest⟩ := by
  obtain ⟨made, rule, hmade, heq⟩ := exists_addEntry_eq g (c, alternative)
  have hlhs : (g.addEntry (c, alternative)).symbols.Denotes c (g.intern c).1 := by
    rw [heq, symbols_addRule, ← hmade.eq_intern]
    exact hmade.lhs
  rw [addProduction_of_denotes hlhs (holds_addEntry g (c, alternative)).start]
  rfl

/-- A line adds its alternatives one by one. -/
theorem addProduction_eq_foldl (g : Grammar) {production : Production}
    (h : production.alternatives ≠ []) :
    g.addProduction production = production.entries.foldl addEntry g := by
  obtain ⟨c, alternatives⟩ := production
  obtain ⟨alternative, rest, rfl⟩ := List.exists_cons_of_ne_nil h
  clear h
  induction rest generalizing g alternative with
  | nil => rfl
  | cons next rest ih =>
    rw [addProduction_cons, ih]
    rfl

/-- The grammar of several lines is made of their alternatives. -/
theorem ofProductions_eq_foldl {productions : List Production}
    (h : ∀ production ∈ productions, production.alternatives ≠ []) :
    ofProductions productions = (productions.flatMap Production.entries).foldl addEntry empty := by
  unfold ofProductions
  rw [List.foldl_flatMap]
  exact List.foldl_ext _ _ _ fun g production hmem => addProduction_eq_foldl g (h production hmem)

/-- An alternative is there once it was added among others. -/
theorem holds_foldl_addEntry {entries : List Entry} (h : e ∈ entries) :
    (entries.foldl addEntry g).Holds e := by
  induction entries using List.reverseRecOn with
  | nil => exact absurd h List.not_mem_nil
  | append_singleton entries e' ih =>
    rw [List.foldl_append]
    rcases List.mem_append.1 h with h | h
    · exact (ih h).addEntry e'
    · rw [List.mem_singleton.1 h]
      exact holds_addEntry _ e'

/-- Only the first time that an alternative is added counts. -/
theorem foldl_addEntry_eraseDups (g : Grammar) (entries : List Entry) :
    entries.eraseDups.foldl addEntry g = entries.foldl addEntry g := by
  induction entries using List.reverseRecOn with
  | nil => rfl
  | append_singleton entries e ih =>
    rw [eraseDups_concat, List.foldl_append]
    by_cases h : e ∈ entries
    · rw [if_pos h, ih]
      exact (holds_foldl_addEntry h).addEntry_eq.symm
    · rw [if_neg h, List.foldl_append, ih]

/-! ## Rules by their names -/

/-- A rule by the names of its symbols. -/
def namedRule (g : Grammar) (rule : Rule) : Option String × List (Option String) :=
  (g.symbols.name? rule.lhs, rule.rhs.map g.symbols.name?)

/-- A rule whose symbols are named by the characters of an alternative has its names. -/
theorem namedRule_of_denotes (hlhs : g.symbols.Denotes e.1 rule.lhs)
    (hrhs : List.Forall₂ g.symbols.Denotes e.2 rule.rhs) : g.namedRule rule = Entry.spelled e := by
  have hnames : ∀ {text symbols}, List.Forall₂ g.symbols.Denotes text symbols →
      symbols.map g.symbols.name? = text.map fun c => some c.toString := by
    intro text symbols h
    induction h with
    | nil => rfl
    | cons hc _ ih => rw [List.map_cons, List.map_cons, ih, SymbolTable.name?_of_find? hc]
  unfold namedRule Entry.spelled
  rw [SymbolTable.name?_of_find? hlhs, hnames hrhs]

/-- A rule with the names of an alternative keeps them when the table of symbols grows. -/
theorem namedRule_of_extends (hext : g.symbols.Extends made.symbols)
    (h : g.namedRule rule = Entry.spelled e) : made.namedRule rule = Entry.spelled e := by
  obtain ⟨hlhs, hrhs⟩ := Prod.mk.inj h
  unfold namedRule
  congr 1
  · exact hext.name?_eq_some hlhs
  · rw [← hrhs]
    refine List.map_congr_left fun s hs => ?_
    obtain ⟨c, -, hc⟩ := List.mem_map.1 (hrhs ▸ List.mem_map_of_mem hs)
    rw [← hc]
    exact hext.name?_eq_some hc.symm

/-- The grammar is the one with the given alternatives: its rules, by their names, are the
alternatives without repetitions, and its start is the first variable. -/
structure Records (g : Grammar) (entries : List Entry) : Prop where
  /-- The alternatives are there. -/
  holds : ∀ e ∈ entries, g.Holds e
  /-- The rules are the alternatives, in the order in which they were added first. -/
  rules : g.rules.map g.namedRule = entries.eraseDups.map Entry.spelled
  /-- The start is the symbol named by the first variable. -/
  start : g.start = entries.head?.bind fun e => g.symbols.find? e.1.toString

/-- Adding an alternative records it behind the others. -/
theorem Records.addEntry {entries : List Entry} (h : g.Records entries) (e : Entry) :
    (g.addEntry e).Records (entries ++ [e]) := by
  have hholds : ∀ e' ∈ entries ++ [e], (g.addEntry e).Holds e' := by
    intro e' he'
    rcases List.mem_append.1 he' with he' | he'
    · exact (h.holds e' he').addEntry e
    · rw [List.mem_singleton.1 he']
      exact holds_addEntry g e
  by_cases hmem : e ∈ entries
  · refine ⟨hholds, ?_, ?_⟩
    · rw [eraseDups_concat, if_pos hmem, (h.holds e hmem).addEntry_eq, h.rules]
    · obtain ⟨first, rest, rfl⟩ := List.exists_cons_of_ne_nil (List.ne_nil_of_mem hmem)
      rw [(h.holds e hmem).addEntry_eq, h.start]
      rfl
  obtain ⟨made, rule, hmade, heq⟩ := exists_addEntry_eq g e
  have hold : ∀ r ∈ g.rules, made.namedRule r = g.namedRule r := by
    intro r hr
    obtain ⟨e', -, he'⟩ := List.mem_map.1 (h.rules ▸ List.mem_map_of_mem hr)
    rw [← he']
    exact namedRule_of_extends hmade.keeps.symbols he'.symm
  have hrule : made.namedRule rule = Entry.spelled e := namedRule_of_denotes hmade.lhs hmade.rhs
  -- The rule is new: the names of a rule that is there are those of an alternative that is.
  have hnew : rule ∉ made.rules := by
    rw [hmade.rules]
    intro hr
    obtain ⟨e', he', hspelled⟩ := List.mem_map.1 (h.rules ▸ List.mem_map_of_mem hr)
    rw [← hold rule hr, hrule] at hspelled
    exact hmem (Entry.eq_of_spelled_eq hspelled ▸ List.mem_eraseDups.1 he')
  have hadd : g.addEntry e = { made with rules := g.rules ++ [rule] } := by
    rw [heq, addRule_eq, if_neg hnew, hmade.rules]
  refine ⟨hholds, ?_, ?_⟩
  · rw [eraseDups_concat, if_neg hmem, hadd, List.map_append, List.map_append, ← h.rules]
    exact congrArg₂ _ (List.map_congr_left hold) (congrArg (fun x => [x]) hrule)
  · rw [hadd]
    show made.start = _
    rw [hmade.start, h.start]
    cases entries with
    | nil => exact hmade.lhs.symm
    | cons first rest =>
      obtain ⟨r, -, hfirst, -⟩ := (h.holds first List.mem_cons_self).rule
      have hfirst' := hfirst.mono hmade.keeps.symbols
      unfold SymbolTable.Denotes at hfirst hfirst'
      simp only [List.head?_cons, List.cons_append, Option.bind_some, hfirst, hfirst',
        Option.getD_some]

/-- A grammar made of alternatives records them. -/
theorem records_foldl_addEntry (entries : List Entry) :
    (entries.foldl addEntry empty).Records entries := by
  induction entries using List.reverseRecOn with
  | nil => exact ⟨fun _ h => absurd h List.not_mem_nil, rfl, rfl⟩
  | append_singleton entries e ih =>
    rw [List.foldl_append]
    exact ih.addEntry e

/-- The start has the name of the first variable. -/
theorem Records.name?_start {entries : List Entry} (h : g.Records (e :: entries)) :
    g.start.bind g.symbols.name? = some e.1.toString := by
  obtain ⟨rule, -, hlhs, -⟩ := (h.holds e List.mem_cons_self).rule
  have hstart : g.start = some rule.lhs := h.start.trans hlhs
  rw [hstart]
  exact SymbolTable.name?_of_find? hlhs

/-! ## Whole texts -/

open Production (IsContent Says FirstFault)

variable {text : String}

/-- Reading reports the size of the grammar and otherwise ends as it does without a report. -/
theorem outcome_load (text : String) : (load text).outcome = read text := by
  unfold load
  rw [Run.outcome_bind, Run.outcome_ofExcept]
  cases read text with
  | error e => rfl
  | ok g => rfl

/-- A grammar is read exactly from a text in which some line counts and all lines that count say
something, and it is made of what they say. -/
theorem read_eq_ok_iff :
    read text = .ok g ↔ ∃ productions, productions ≠ [] ∧
      List.Forall₂ Says ((Text.lines text.toList).filter (IsContent ·)) productions ∧
      g = (productions.flatMap Production.entries).foldl addEntry empty := by
  have hfold : ∀ {productions},
      List.Forall₂ Says ((Text.lines text.toList).filter (IsContent ·)) productions →
      ofProductions productions =
        (productions.flatMap Production.entries).foldl addEntry empty := by
    intro productions h
    refine ofProductions_eq_foldl fun production hmem => ?_
    obtain ⟨line, hsays⟩ := (Production.exists_says h).2 production hmem
    exact hsays.isUpper_and_isSymbol.2.1
  unfold read
  constructor
  · intro h
    split at h
    · exact absurd h (by simp)
    · exact absurd h (by simp)
    · next first rest hparse =>
      have hsays := Production.parseLines_eq_ok_iff.1 hparse
      refine ⟨first :: rest, List.cons_ne_nil _ _, hsays, ?_⟩
      rw [← hfold hsays]
      exact (Except.ok.inj h).symm
  · rintro ⟨productions, hne, hsays, rfl⟩
    obtain ⟨first, rest, rfl⟩ := List.exists_cons_of_ne_nil hne
    rw [Production.parseLines_eq_ok_iff.2 hsays, ← hfold hsays]

/-- A text from which no grammar can be read has a first fault, and it is reported with its line and
its column in 32 bits. -/
theorem exists_firstFault_of_read {e : LoadError} (h : read text = .error e) :
    ∃ number column, FirstFault (Text.lines text.toList) e.reason number column ∧
      e.line = UInt32.ofNat number ∧ e.column = UInt32.ofNat column := by
  unfold read at h
  split at h
  · next e' hparse =>
    obtain rfl : e' = e := by simpa using h
    obtain ⟨before, line, after, hlines, hline, hcontent, hparseLine, hbefore⟩ :=
      (Production.stopsAt_of_parseLines hparse).exists_append
    have hsilent : ¬∃ production, Says line production := by
      rintro ⟨production, hsays⟩
      rw [Production.parse_eq_ok_iff.2 hsays] at hparseLine
      exact absurd hparseLine (by simp)
    obtain ⟨column, hfault, hcolumn⟩ := Production.faulty_of_parse hparseLine
    rw [Nat.zero_add, LoadError.position_eq_ofNat] at hline
    have hfirst := FirstFault.line hlines hcontent hsilent hfault hbefore
    exact ⟨before.length + 1, column, hfirst, hline, hcolumn⟩
  · next hparse =>
    obtain rfl : ⟨.noRules, 1, 1⟩ = e := by simpa using h
    have hnone := List.forall₂_nil_right_iff.1 (Production.parseLines_eq_ok_iff.1 hparse)
    refine ⟨1, 1, .noRules fun line hmem hcontent => ?_, rfl, rfl⟩
    exact List.filter_eq_nil_iff.1 hnone line hmem (by simpa using hcontent)
  · exact absurd h (by simp)

/-- A grammar is read exactly if some line counts and every line that counts says something. -/
theorem exists_read_iff :
    (∃ g, read text = .ok g) ↔ (∃ line ∈ Text.lines text.toList, IsContent line) ∧
      ∀ line ∈ Text.lines text.toList, IsContent line → ∃ production, Says line production := by
  constructor
  · rintro ⟨g, hg⟩
    obtain ⟨productions, hne, hsays, -⟩ := read_eq_ok_iff.1 hg
    have hall := (Production.exists_says hsays).1
    simp only [List.mem_filter, decide_eq_true_eq, and_imp] at hall
    refine ⟨?_, hall⟩
    obtain ⟨first, rest, rfl⟩ := List.exists_cons_of_ne_nil hne
    obtain ⟨line, lines, -, -, hlines⟩ := List.forall₂_cons_right_iff.1 hsays
    have hmem : line ∈ (Text.lines text.toList).filter (IsContent ·) := by simp [hlines]
    obtain ⟨hline, hcontent⟩ := List.mem_filter.1 hmem
    exact ⟨line, hline, of_decide_eq_true hcontent⟩
  · rintro ⟨⟨line, hmem, hcontent⟩, hall⟩
    cases hread : read text with
    | ok g => exact ⟨g, rfl⟩
    | error e =>
      obtain ⟨reason, line', column'⟩ := e
      obtain ⟨number, column, hfirst, -, -⟩ := exists_firstFault_of_read hread
      cases hfirst with
      | noRules hnone => exact absurd hcontent (hnone line hmem)
      | @line before after faulty _ _ hlines hcontent' hsilent _ _ =>
        exact absurd (hall faulty (by simp [hlines]) hcontent') hsilent

/-- The rules of a grammar that was read are named by the alternatives of its lines, and its start
by the variable of the first line. -/
theorem namedRules_of_read (h : read text = .ok g) :
    ∃ first rest,
      List.Forall₂ Says ((Text.lines text.toList).filter (IsContent ·)) (first :: rest) ∧
      g.rules.map g.namedRule =
        ((first :: rest).flatMap Production.entries).eraseDups.map Entry.spelled ∧
      g.start.bind g.symbols.name? = some first.lhs.toString := by
  obtain ⟨productions, hne, hsays, rfl⟩ := read_eq_ok_iff.1 h
  obtain ⟨first, rest, rfl⟩ := List.exists_cons_of_ne_nil hne
  have hrecords := records_foldl_addEntry ((first :: rest).flatMap Production.entries)
  refine ⟨first, rest, hsays, hrecords.rules, ?_⟩
  -- The first alternative of the first line is the first one of all.
  obtain ⟨line, lines, hfirst, -, -⟩ := List.forall₂_cons_right_iff.1 hsays
  obtain ⟨alternative, others, hcons⟩ :=
    List.exists_cons_of_ne_nil hfirst.isUpper_and_isSymbol.2.1
  have hentries : (first :: rest).flatMap Production.entries =
      (first.lhs, alternative) :: (others.map fun other => (first.lhs, other)) ++
        rest.flatMap Production.entries := by
    rw [List.flatMap_cons, Production.entries, hcons, List.map_cons]
  rw [hentries] at hrecords ⊢
  exact hrecords.name?_start

/-- A reported error has the first fault of the text as its reason, and the line and the column of
that fault modulo `2 ^ 32`. They are the true ones if the lines are few and short enough. -/
theorem firstFault_of_read {e : LoadError} (h : read text = .error e) :
    (∃ number column, FirstFault (Text.lines text.toList) e.reason number column ∧
      e.line.toNat = number % 2 ^ 32 ∧ e.column.toNat = column % 2 ^ 32) ∧
    ((Text.lines text.toList).length < 2 ^ 32 →
      (∀ line ∈ Text.lines text.toList, line.length + 1 < 2 ^ 32) →
      FirstFault (Text.lines text.toList) e.reason e.line.toNat e.column.toNat) := by
  obtain ⟨number, column, hfirst, hline, hcolumn⟩ := exists_firstFault_of_read h
  rw [hline, hcolumn, UInt32.toNat_ofNat', UInt32.toNat_ofNat']
  refine ⟨⟨number, column, hfirst, rfl, rfl⟩, fun hfew hshort => ?_⟩
  obtain ⟨hnumber, hcolumn⟩ := hfirst.lt hfew hshort
  rwa [Nat.mod_eq_of_lt hnumber, Nat.mod_eq_of_lt hcolumn]

/-- A grammar is read from a text exactly if some line counts and every line that counts has a
variable alone before its first arrow. The rules of the grammar, by the names of their symbols, are
then the alternatives of these lines in order without repetitions, and its start is the variable of
the first one. Otherwise the error is the first fault of the text, with its line and its column
modulo `2 ^ 32`; they are exact in a text of fewer than `2 ^ 32` lines if none of these has more
than `2 ^ 32 - 2` characters. -/
theorem load_exact (text : String) :
    ((∃ g, (load text).outcome = .ok g) ↔
      (∃ line ∈ Text.lines text.toList, IsContent line) ∧
        ∀ line ∈ Text.lines text.toList, IsContent line → ∃ production, Says line production) ∧
    (∀ g, (load text).outcome = .ok g → ∃ first rest,
      List.Forall₂ Says ((Text.lines text.toList).filter (IsContent ·)) (first :: rest) ∧
      g.rules.map g.namedRule =
        ((first :: rest).flatMap Production.entries).eraseDups.map Entry.spelled ∧
      g.start.bind g.symbols.name? = some first.lhs.toString) ∧
    ∀ e, (load text).outcome = .error e →
      (∃ number column, FirstFault (Text.lines text.toList) e.reason number column ∧
        e.line.toNat = number % 2 ^ 32 ∧ e.column.toNat = column % 2 ^ 32) ∧
      ((Text.lines text.toList).length < 2 ^ 32 →
        (∀ line ∈ Text.lines text.toList, line.length + 1 < 2 ^ 32) →
        FirstFault (Text.lines text.toList) e.reason e.line.toNat e.column.toNat) := by
  rw [outcome_load]
  refine ⟨exists_read_iff, fun g hg => ?_, fun e he => ?_⟩
  · exact namedRules_of_read hg
  · exact firstFault_of_read he

/-- A comment, a blank line, both arrows and a repeated alternative give three rules; a second
character before the arrow is found in its column. -/
theorem load_exact_pairs :
    (∃ g first rest, (load "# pairs\nS → aSb | ε\n\n S ->|ab| a S b\n").outcome = .ok g ∧
      g.rules.map g.namedRule = [(some "S", [some "a", some "S", some "b"]), (some "S", []),
        (some "S", [some "a", some "b"])] ∧
      g.rules.map g.namedRule =
        ((first :: rest).flatMap Production.entries).eraseDups.map Entry.spelled ∧
      g.start.bind g.symbols.name? = some first.lhs.toString) ∧
    (load "S -> a\n # T\n é T -> b").outcome = .error ⟨.severalSymbols, 3, 4⟩ ∧
      FirstFault (Text.lines "S -> a\n # T\n é T -> b".toList) .severalSymbols 3 4 := by
  constructor
  · have hrules : (load "# pairs\nS → aSb | ε\n\n S ->|ab| a S b\n").outcome.toOption.any (fun g =>
        decide (g.rules.map g.namedRule = [(some "S", [some "a", some "S", some "b"]),
          (some "S", []), (some "S", [some "a", some "b"])])) = true := by
      decide +kernel
    obtain ⟨g, hg, hnames⟩ := Run.exists_eq_ok_of_any hrules
    obtain ⟨first, rest, -, hspelled, hstart⟩ := (load_exact _).2.1 g hg
    exact ⟨g, first, rest, hg, of_decide_eq_true hnames, hspelled, hstart⟩
  · have herror : (load "S -> a\n # T\n é T -> b").outcome = .error ⟨.severalSymbols, 3, 4⟩ := rfl
    have hfew : (Text.lines "S -> a\n # T\n é T -> b".toList).length < 2 ^ 32 := by decide +kernel
    have hshort : ∀ line ∈ Text.lines "S -> a\n # T\n é T -> b".toList,
        line.length + 1 < 2 ^ 32 := by
      decide +kernel
    exact ⟨herror, ((load_exact _).2.2 _ herror).2 hfew hshort⟩

/-! ## Texts too large for positions in 32 bits -/

/-- A line of crosses, one more than given, below empty lines. -/
def crossesBelow (empties more : Nat) : String :=
  String.ofList (List.replicate empties '\n' ++ List.replicate (more + 1) 'x')

variable {empties more number column : Nat} {reason : LoadError.Reason}

/-- The lines are the empty ones and the one with the crosses. -/
theorem lines_crossesBelow : Text.lines (crossesBelow empties more).toList =
    List.replicate empties [] ++ [List.replicate (more + 1) 'x'] := by
  have hsingle : Text.IsSingle (List.replicate (more + 1) 'x') := by
    constructor <;> simp [List.mem_replicate]
  rw [crossesBelow, String.toList_ofList, Text.lines_replicate_append,
    Text.lines_of_isSingle hsingle (by simp)]

/-- Crosses hold no arrow. -/
theorem splitArrow_replicate (n : Nat) : Production.splitArrow (List.replicate n 'x') = none := by
  induction n with
  | zero => rfl
  | succ n ih =>
    rw [List.replicate_succ, Production.splitArrow.eq_4 _ _ (by simp) (by simp), ih]
    rfl

/-- Crosses are no comment, and not blank. -/
theorem isSkipped_replicate (n : Nat) :
    Production.isSkipped (List.replicate (n + 1) 'x') = false := by
  rw [List.replicate_succ]
  rfl

/-- The arrow that the crosses lack is reported behind them. -/
theorem outcome_load_crossesBelow : (load (crossesBelow empties more)).outcome =
    .error ⟨.missingArrow, LoadError.position empties, LoadError.position (more + 1)⟩ := by
  have hempties : ∀ line ∈ List.replicate empties [], Production.isSkipped line = true := by
    intro line hmem
    rw [List.eq_of_mem_replicate hmem]
    rfl
  have hparse : Production.parse (List.replicate (more + 1) 'x') =
      .error (.missingArrow, LoadError.position (more + 1)) := by
    rw [Production.parse, splitArrow_replicate, List.length_replicate]
  rw [outcome_load, read, lines_crossesBelow, Production.parseLines_append_of_isSkipped hempties,
    List.length_replicate, Nat.zero_add, Production.parseLines,
    if_neg (by simp [isSkipped_replicate]), hparse]

/-- The missing arrow is the first fault of the text, and its position is the only one. -/
theorem firstFault_crossesBelow_iff :
    FirstFault (Text.lines (crossesBelow empties more).toList) reason number column ↔
      reason = .missingArrow ∧ number = empties + 1 ∧ column = more + 2 := by
  have harrow : ∀ before after,
      ¬Production.ArrowBetween (List.replicate (more + 1) 'x') before after :=
    (Production.splitArrow_spec _).2 (splitArrow_replicate _)
  have hsilent : ¬∃ production, Says (List.replicate (more + 1) 'x') production := by
    rintro ⟨production, before, after, hfirst, -⟩
    exact harrow before after hfirst.between
  have hcontent : IsContent (List.replicate (more + 1) 'x') :=
    Production.isSkipped_eq_false_iff.1 (isSkipped_replicate more)
  have hempty : ∀ line ∈ List.replicate empties [], ¬IsContent line := by
    intro line hmem
    rw [List.eq_of_mem_replicate hmem]
    decide
  rw [lines_crossesBelow]
  constructor
  · intro h
    cases h with
    | noRules hnone => exact absurd hcontent (hnone _ (by simp))
    | @line before after line _ _ hlines hcounts _ hfault _ =>
      -- The line at fault is the last one, since the empty ones do not count.
      rcases List.eq_nil_or_concat after with rfl | ⟨middle, last, rfl⟩
      · obtain ⟨rfl, hlast⟩ := List.append_inj' hlines rfl
        obtain rfl : List.replicate (more + 1) 'x' = line := by simpa using hlast
        cases hfault with
        | missingArrow => simp
        | missingLhs hfirst => exact absurd hfirst.between (harrow _ _)
        | severalSymbols hfirst => exact absurd hfirst.between (harrow _ _)
        | notVariable hfirst => exact absurd hfirst.between (harrow _ _)
      · have hlines' : List.replicate empties [] ++ [List.replicate (more + 1) 'x'] =
            (before ++ line :: middle) ++ [last] := by
          simpa using hlines
        obtain ⟨hempties, -⟩ := List.append_inj' hlines' rfl
        exact absurd hcounts (hempty line (by simp [hempties]))
  · rintro ⟨rfl, rfl, rfl⟩
    have hfault := Production.Faulty.missingArrow harrow
    have hearlier : ∀ line ∈ List.replicate empties [], IsContent line →
        ∃ production, Says line production :=
      fun line hmem hcounts => absurd hcounts (hempty line hmem)
    have hfirst : FirstFault (List.replicate empties [] ++ [List.replicate (more + 1) 'x'])
        .missingArrow _ _ := .line rfl hcontent hsilent hfault hearlier
    rwa [List.length_replicate, List.length_replicate] at hfirst

/-- Where 32 bits are too few, the reported position is not the one of the fault: below `2 ^ 32`
empty lines the fault is reported in line one, and behind `2 ^ 32 - 1` crosses in column zero. -/
theorem load_position_wraps :
    ((load (crossesBelow (2 ^ 32) 0)).outcome = .error ⟨.missingArrow, 1, 2⟩ ∧
      FirstFault (Text.lines (crossesBelow (2 ^ 32) 0).toList) .missingArrow (2 ^ 32 + 1) 2 ∧
      ¬FirstFault (Text.lines (crossesBelow (2 ^ 32) 0).toList) .missingArrow 1 2) ∧
    (load (crossesBelow 0 (2 ^ 32 - 2))).outcome = .error ⟨.missingArrow, 1, 0⟩ ∧
      FirstFault (Text.lines (crossesBelow 0 (2 ^ 32 - 2)).toList) .missingArrow 1 (2 ^ 32) ∧
      ¬FirstFault (Text.lines (crossesBelow 0 (2 ^ 32 - 2)).toList) .missingArrow 1 0 := by
  have hline : LoadError.position (2 ^ 32) = 1 := by decide
  have hcolumn : LoadError.position (2 ^ 32 - 2 + 1) = 0 := by decide
  refine ⟨⟨?_, firstFault_crossesBelow_iff.2 (by decide), ?_⟩, ?_,
    firstFault_crossesBelow_iff.2 (by decide), ?_⟩
  · rw [outcome_load_crossesBelow, hline]
    rfl
  · rw [firstFault_crossesBelow_iff]
    decide
  · rw [outcome_load_crossesBelow, hcolumn]
    rfl
  · rw [firstFault_crossesBelow_iff]
    decide

end Grammar

end ContextFree
