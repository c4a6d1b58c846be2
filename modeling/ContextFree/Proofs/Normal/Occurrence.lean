import ContextFree.Proofs.Chart.ShortCircuit
import ContextFree.Proofs.Parser

/-!
# Useful rules are those that occur in derivations

A rule is useful when it occurs in some complete derivation of a word from the start symbol
(`Grammar.Occurs`). A rule of a derivation is for a symbol that productive rules lead to from the
start symbol, and its right-hand side spells a part of the word
(`Grammar.Derives.exists_leadsTo`), so neither of the two filters drops it. Conversely, a path of
productive rules from the start symbol is the spine of a derivation: the symbols beside it derive
words of their own, and whatever is derived at its end stands inside
(`Grammar.exists_derives_of_leadsTo`). The rules that are kept are therefore exactly those that
occur (`Grammar.mem_usefulPart_iff_occurs`).
-/

namespace ContextFree.Grammar

variable {g : Grammar} {start s t : Symbol} {rule : Rule} {d : Derivation}
  {form word : List Symbol}

/-- The rule occurs in some complete derivation of a word of terminals from the start symbol. -/
def Occurs (g : Grammar) (rule : Rule) : Prop :=
  ∃ start d word, g.start = some start ∧ g.LeftmostDerivation d start word ∧ rule ∈ d

/-- A rule of a derivation is for a symbol that productive rules lead to, and its right-hand side
spells a part of the word. -/
theorem Derives.exists_leadsTo (h : g.Derives d form word) (hr : rule ∈ d) :
    (∃ s ∈ form, Relation.ReflTransGen g.productivePart.LeadsTo s rule.lhs) ∧
      ∃ part, g.Spells rule.rhs part := by
  induction h with
  | nil => exact absurd hr List.not_mem_nil
  | ofTerminal _ _ ih =>
    obtain ⟨⟨s, hs, hpath⟩, hpart⟩ := ih hr
    exact ⟨⟨s, List.mem_cons_of_mem _ hs, hpath⟩, hpart⟩
  | @ofRule top d e rest part word hm _ head _ ihHead ihTail =>
    rcases List.mem_cons.1 hr with rfl | hr
    · exact ⟨⟨rule.lhs, List.mem_cons_self, .refl⟩, part, head.spells⟩
    rcases List.mem_append.1 hr with hr | hr
    · -- The rule at the top leads on to the symbol from which the path goes.
      obtain ⟨⟨s, hs, hpath⟩, hpart⟩ := ihHead hr
      have hstep : g.productivePart.LeadsTo top.lhs s :=
        ⟨top, mem_productivePart_of_spells hm head.spells, rfl, hs⟩
      exact ⟨⟨top.lhs, List.mem_cons_self, hpath.head hstep⟩, hpart⟩
    · obtain ⟨⟨s, hs, hpath⟩, hpart⟩ := ihTail hr
      exact ⟨⟨s, List.mem_cons_of_mem _ hs, hpath⟩, hpart⟩

/-- A derivation from a symbol that productive rules lead to is part of one from the symbol that
they lead from. -/
theorem exists_derives_of_leadsTo (hl : ∀ rule ∈ g.rules, g.isTerminal rule.lhs = false)
    (hpath : Relation.ReflTransGen g.productivePart.LeadsTo s t) (hd : g.Derives d [t] word) :
    ∃ around outer, g.Derives around [s] outer ∧ ∀ rule ∈ d, rule ∈ around := by
  induction hpath using Relation.ReflTransGen.head_induction_on with
  | refl => exact ⟨d, word, hd, fun _ hr => hr⟩
  | head hstep _ ih =>
    obtain ⟨inner, part, hinner, hsub⟩ := ih
    obtain ⟨top, htop, rfl, hmem⟩ := hstep
    have hm : top ∈ g.rules := (List.mem_filter.1 htop).1
    -- The symbols on either side of the path derive words of their own.
    have hspell := exists_spells_of_mem_productivePart hl htop
    obtain ⟨before, after, hrhs⟩ := List.append_of_mem hmem
    rw [hrhs] at hspell
    obtain ⟨u, hu⟩ := exists_spells_of_forall fun x hx => hspell x (List.mem_append_left _ hx)
    obtain ⟨v, hv⟩ := exists_spells_of_forall fun x hx =>
      hspell x (List.mem_append_right _ (List.mem_cons_of_mem _ hx))
    obtain ⟨first, hfirst⟩ := hu.exists_derives
    obtain ⟨last, hlast⟩ := hv.exists_derives
    have hbelow : g.Derives (first ++ (inner ++ last)) top.rhs (u ++ (part ++ v)) := by
      rw [hrhs]
      exact hfirst.append (hinner.append hlast)
    refine ⟨top :: (first ++ (inner ++ last)), _,
      (derives_variable_iff (hl top hm)).2 ⟨top, hm, rfl, _, rfl, hbelow⟩, fun rule hr => ?_⟩
    simp [hsub rule hr]

/-- The useful rules of a valid grammar are those that occur in a derivation. -/
theorem mem_usefulPart_iff_occurs (hg : g.Valid) (hs : g.start = some start) :
    rule ∈ (g.usefulPart start).rules ↔ g.Occurs rule := by
  obtain ⟨start', hs', hknows, -⟩ := hg.start
  obtain rfl : start' = start := Option.some.inj (hs'.symm.trans hs)
  have hl := hg.isTerminal_lhs
  have hreach : ∀ {s}, s ∈ g.productivePart.reachableFrom start' ↔
      Relation.ReflTransGen g.productivePart.LeadsTo start' s :=
    mem_reachableFrom_iff (productivePart_valid hg) hknows
  constructor
  · intro hr
    obtain ⟨hproductive, hlhs⟩ := List.mem_filter.1 hr
    obtain ⟨word, hword⟩ :=
      exists_spells_of_forall (exists_spells_of_mem_productivePart hl hproductive)
    obtain ⟨e, he⟩ := hword.exists_derives
    have hm := mem_of_mem_usefulPart hr
    have hd : g.Derives (rule :: e) [rule.lhs] word :=
      (derives_variable_iff (hl rule hm)).2 ⟨rule, hm, rfl, e, rfl, he⟩
    obtain ⟨around, outer, haround, hsub⟩ :=
      exists_derives_of_leadsTo hl (hreach.1 (SymbolSet.contains_iff.1 hlhs)) hd
    exact ⟨start', around, outer, hs, leftmostDerivation_iff.2 haround,
      hsub rule List.mem_cons_self⟩
  · rintro ⟨first, d, word, hfirst, hd, hr⟩
    obtain rfl : first = start' := Option.some.inj (hfirst.symm.trans hs)
    have hderives := leftmostDerivation_iff.1 hd
    obtain ⟨⟨s, hs, hpath⟩, part, hpart⟩ := hderives.exists_leadsTo hr
    rw [List.mem_singleton.1 hs] at hpath
    exact mem_usefulPart_of_spells (hderives.mem_rules rule hr) (hreach.2 hpath) hpart

/-- Removing the useless rules of a valid grammar succeeds and is exact. The symbols, the terminals
and the start symbol stay, and of the rules those stay, in order, that occur in some complete
derivation of a word from the start symbol. The language stays the same. -/
theorem removeUseless_exact (hv : g.validate = .ok ()) :
    ∃ useful, g.removeUseless = .ok useful ∧ useful.grammar.symbols = g.symbols ∧
      useful.grammar.terminals = g.terminals ∧ useful.grammar.start = g.start ∧
      (∃ keep : Rule → Bool, useful.grammar.rules = g.rules.filter keep ∧
        ∀ rule ∈ g.rules, keep rule = true ↔ g.Occurs rule) ∧
      ∀ word, useful.grammar.Language word ↔ g.Language word := by
  have hg := validate_eq_ok_iff.1 hv
  obtain ⟨start, hs, -, hvar⟩ := hg.start
  obtain ⟨useful, huseful, hgrammar⟩ := exists_removeUseless hg hs
  refine ⟨useful, huseful, ?_⟩
  rw [hgrammar]
  refine ⟨rfl, rfl, rfl, ⟨(g.usefulPart start).contains, rules_usefulPart g start, ?_⟩, ?_⟩
  · intro rule _
    rw [contains, List.contains_iff_mem, mem_usefulPart_iff_occurs hg hs]
  · intro word
    have hs' : (g.usefulPart start).start = some start := hs
    have hvar' : (g.usefulPart start).isTerminal start = false := hvar
    rw [language_iff_spells hs' hvar', language_iff_spells hs hvar]
    exact spells_useful_iff hg hs

/-- The grammar with the rules `S → A`, `S → B C`, `A → a`, `B → B` and `C → a`. All variables are
reachable, but `C` only beside `B`, which derives no word. -/
def dangling : Grammar :=
  Grammar.empty
    |>.addVariable (some "S")
    |>.addVariable (some "A")
    |>.addVariable (some "B")
    |>.addVariable (some "C")
    |>.addTerminal "a"
    |>.setStart ⟨0⟩
    |>.addRule ⟨⟨0⟩, [⟨1⟩]⟩
    |>.addRule ⟨⟨0⟩, [⟨2⟩, ⟨3⟩]⟩
    |>.addRule ⟨⟨1⟩, [⟨4⟩]⟩
    |>.addRule ⟨⟨2⟩, [⟨2⟩]⟩
    |>.addRule ⟨⟨3⟩, [⟨4⟩]⟩

/-- The rule `A → a` occurs in the derivation of the only word, and the rule `C → a` in none, so two
of the five rules are left. -/
theorem removeUseless_exact_dangling :
    dangling.validate = .ok () ∧ ∃ useful, dangling.removeUseless = .ok useful ∧
      useful.grammar.rules = [⟨⟨0⟩, [⟨1⟩]⟩, ⟨⟨1⟩, [⟨4⟩]⟩] ∧
      dangling.Occurs ⟨⟨1⟩, [⟨4⟩]⟩ ∧ (⟨⟨3⟩, [⟨4⟩]⟩ : Rule) ∈ dangling.rules ∧
      ¬dangling.Occurs ⟨⟨3⟩, [⟨4⟩]⟩ ∧ useful.grammar.Language [⟨4⟩] := by
  have hv : dangling.validate = .ok () := by decide +kernel
  have hremoves : dangling.removeUseless.toOption.any (fun useful =>
      decide (useful.grammar.rules = [⟨⟨0⟩, [⟨1⟩]⟩, ⟨⟨1⟩, [⟨4⟩]⟩])) = true := by
    decide +kernel
  obtain ⟨useful, huseful, htwo⟩ := Run.exists_eq_ok_of_any hremoves
  rw [decide_eq_true_eq] at htwo
  obtain ⟨useful', huseful', -, -, -, ⟨keep, hrules, hkeep⟩, hlanguage⟩ := removeUseless_exact hv
  obtain rfl := Except.ok.inj (huseful.symm.trans huseful')
  have hmem : (⟨⟨3⟩, [⟨4⟩]⟩ : Rule) ∈ dangling.rules := by decide +kernel
  have hword : dangling.LeftmostDerivation [⟨⟨0⟩, [⟨1⟩]⟩, ⟨⟨1⟩, [⟨4⟩]⟩] ⟨0⟩ [⟨4⟩] := by
    decide +kernel
  refine ⟨hv, useful, huseful, htwo, ⟨⟨0⟩, _, _, rfl, hword, by simp⟩, hmem, fun hoccurs => ?_, ?_⟩
  · have hkept := List.mem_filter.2 ⟨hmem, (hkeep _ hmem).2 hoccurs⟩
    rw [← hrules, htwo] at hkept
    exact absurd hkept (by decide)
  · exact (hlanguage _).2 (hword.language rfl (by decide +kernel))

end ContextFree.Grammar
