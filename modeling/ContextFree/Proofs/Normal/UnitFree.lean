import ContextFree.Normal.UnitFree
import ContextFree.Proofs.Grammar.Construction
import ContextFree.Proofs.Normal.Stage
import ContextFree.Proofs.Provenance.Restore
import Mathlib.Data.List.Perm.Subperm

/-!
# Eliminating unit rules keeps what variables spell

The search for unit chains reaches a variable with a chain that leads there
(`Grammar.Reaches.chains`), each variable once and only variables that unit rules lead to, so there
are enough rounds to follow all of them (`Grammar.Reaches.length_le`). It therefore reaches
everything that unit rules lead to (`Grammar.mem_unitChains`). A rule is there after the elimination
exactly when a chain leads from its left-hand side to another rule with its right-hand side
(`Grammar.mem_eliminateUnits_iff`), and every symbol spells what it did before
(`Grammar.spells_eliminateUnits_iff`).
-/

namespace ContextFree.Grammar

variable {g : Grammar} {s t : Symbol} {rule : Rule} {chain : Derivation} {reached : UnitChains}
  {form word : List Symbol}

/-! ## The search -/

/-- What the search keeps: it begins with the variable itself, has no variable twice, leads to each
by its chain, and has besides the first only variables that unit rules lead to. -/
structure Reaches (g : Grammar) (s : Symbol) (reached : UnitChains) : Prop where
  /-- The variable itself comes first, by the empty chain. -/
  first : ∃ rest, reached = (s, []) :: rest
  /-- No variable is reached twice. -/
  nodup : (reached.map (·.1)).Nodup
  /-- Every chain leads to its variable. -/
  chains : ∀ entry ∈ reached, g.UnitChain s entry.2 entry.1
  /-- Unit rules lead to all variables after the first. -/
  targets : ∀ t ∈ reached.tail.map (·.1), ∃ rule ∈ g.rules, g.unitTarget? rule = some t

/-- The search begins with the variable itself. -/
theorem reaches_singleton (g : Grammar) (s : Symbol) : g.Reaches s [(s, [])] := by
  refine ⟨⟨[], rfl⟩, by simp, fun entry h => ?_, by simp⟩
  rw [List.mem_singleton.1 h]
  exact .nil

/-- Noting the target of a rule keeps what is reached and adds at most that target, by the chain
that the rule continues. -/
theorem noteTarget_eq (chain : Derivation) (reached : UnitChains) (rule : Rule) :
    (g.noteTarget chain reached rule = reached ∧
        ∀ t, g.unitTarget? rule = some t → t ∈ reached.map (·.1)) ∨
      ∃ t, g.unitTarget? rule = some t ∧ t ∉ reached.map (·.1) ∧
        g.noteTarget chain reached rule = reached ++ [(t, chain ++ [rule])] := by
  unfold noteTarget
  cases htarget : g.unitTarget? rule with
  | none => exact .inl ⟨rfl, fun t ht => absurd ht (by simp)⟩
  | some t =>
    have hany : reached.any (·.1 = t) = true ↔ t ∈ reached.map (·.1) := by simp
    dsimp only
    split
    · next h =>
      refine .inl ⟨rfl, fun u hu => ?_⟩
      rw [← Option.some.inj hu]
      exact hany.1 h
    · next h => exact .inr ⟨t, rfl, fun hmem => h (hany.2 hmem), rfl⟩

/-- Noting the target of a rule for a variable that is reached keeps the search right. -/
theorem Reaches.noteTarget (h : g.Reaches s reached) (hr : rule ∈ g.rules)
    (hc : g.UnitChain s chain rule.lhs) : g.Reaches s (g.noteTarget chain reached rule) := by
  rcases noteTarget_eq chain reached rule with ⟨hsame, -⟩ | ⟨t, htarget, hnew, hadd⟩
  · rw [hsame]
    exact h
  · obtain ⟨rest, rfl⟩ := h.first
    rw [hadd]
    refine ⟨⟨rest ++ [(t, chain ++ [rule])], rfl⟩, ?_, fun entry hm => ?_, fun u hu => ?_⟩
    · rw [List.map_append, List.nodup_append]
      refine ⟨h.nodup, by simp, fun a ha b hb hab => ?_⟩
      rw [List.map_singleton, List.mem_singleton] at hb
      rw [hab, hb] at ha
      exact hnew ha
    · rcases List.mem_append.1 hm with hm | hm
      · exact h.chains entry hm
      · rw [List.mem_singleton.1 hm]
        exact .snoc hc hr htarget
    · rw [List.cons_append, List.tail_cons, List.map_append] at hu
      rcases List.mem_append.1 hu with hu | hu
      · exact h.targets u hu
      · rw [List.map_singleton, List.mem_singleton] at hu
        exact ⟨rule, hr, hu ▸ htarget⟩

/-- Going through rules for a variable that is reached notes all their targets behind what was
reached before. -/
theorem Reaches.foldl_noteTarget (h : g.Reaches s reached) (hc : g.UnitChain s chain t)
    (rules : List Rule) (hr : ∀ rule ∈ rules, rule ∈ g.rules ∧ rule.lhs = t) :
    g.Reaches s (rules.foldl (g.noteTarget chain) reached) ∧
      reached <+: rules.foldl (g.noteTarget chain) reached ∧
      ∀ rule ∈ rules, ∀ u, g.unitTarget? rule = some u →
        u ∈ (rules.foldl (g.noteTarget chain) reached).map (·.1) := by
  induction rules generalizing reached with
  | nil => exact ⟨h, List.prefix_rfl, by simp⟩
  | cons rule rules ih =>
    obtain ⟨hm, hlhs⟩ := hr rule (by simp)
    have hstep := h.noteTarget hm (hlhs ▸ hc)
    obtain ⟨hreaches, hinit, htargets⟩ := ih hstep fun r hr' => hr r (by simp [hr'])
    rw [List.foldl_cons]
    -- The target of the first rule is there after its step, and stays.
    have hhere : reached <+: g.noteTarget chain reached rule ∧
        ∀ u, g.unitTarget? rule = some u → u ∈ (g.noteTarget chain reached rule).map (·.1) := by
      rcases noteTarget_eq chain reached rule with ⟨hsame, hold⟩ | ⟨t, htarget, -, hadd⟩
      · rw [hsame]
        exact ⟨List.prefix_rfl, hold⟩
      · rw [hadd]
        refine ⟨List.prefix_append _ _, fun u hu => ?_⟩
        rw [htarget] at hu
        rw [← Option.some.inj hu]
        simp
    refine ⟨hreaches, hhere.1.trans hinit, List.forall_mem_cons.2 ⟨fun u hu => ?_, htargets⟩⟩
    exact (hinit.sublist.map _).subset (hhere.2 u hu)

/-- The unit rules of the first `k` variables reached were followed. -/
def Follows (g : Grammar) (reached : UnitChains) (k : Nat) : Prop :=
  ∀ i < k, ∀ entry, reached[i]? = some entry → ∀ rule ∈ g.rules, rule.lhs = entry.1 →
    ∀ u, g.unitTarget? rule = some u → u ∈ reached.map (·.1)

/-- Following one more variable keeps the search right. -/
theorem Reaches.followAt {k : Nat} (h : g.Reaches s reached) (hf : g.Follows reached k) :
    g.Reaches s (g.followAt reached k) ∧ g.Follows (g.followAt reached k) (k + 1) := by
  unfold Grammar.followAt
  cases hentry : reached[k]? with
  | none =>
    refine ⟨h, fun i hi entry hget => ?_⟩
    rcases Nat.lt_succ_iff_lt_or_eq.1 hi with hi | rfl
    · exact hf i hi entry hget
    · exact absurd (hentry.symm.trans hget) (by simp)
  | some entry =>
    obtain ⟨t, chain⟩ := entry
    have hlt : k < reached.length := (List.getElem?_eq_some_iff.1 hentry).1
    have hc : g.UnitChain s chain t := h.chains (t, chain) (List.mem_of_getElem? hentry)
    have hrules : ∀ rule ∈ g.rulesFor t, rule ∈ g.rules ∧ rule.lhs = t := fun rule hr => by
      simpa [rulesFor] using hr
    obtain ⟨hreaches, hinit, htargets⟩ := h.foldl_noteTarget hc (g.rulesFor t) hrules
    dsimp only
    refine ⟨hreaches, fun i hi entry hget rule hr hlhs u hu => ?_⟩
    -- What was reached keeps its place, so only the last of the variables is followed now.
    have hold : reached[i]? = some entry := by
      obtain ⟨extra, hextra⟩ := hinit
      rw [← hget, ← hextra, List.getElem?_append_left (by omega)]
    rcases Nat.lt_succ_iff_lt_or_eq.1 hi with hi | rfl
    · exact (hinit.sublist.map _).subset (hf i hi entry hold rule hr hlhs u hu)
    · rw [hentry] at hold
      obtain rfl := Option.some.inj hold
      exact htargets rule (by simpa [rulesFor] using ⟨hr, hlhs⟩) u hu

/-- After `k` rounds the search is right and has followed the first `k` variables. -/
theorem reaches_foldl_followAt (g : Grammar) (s : Symbol) (k : Nat) :
    g.Reaches s ((List.range k).foldl g.followAt [(s, [])]) ∧
      g.Follows ((List.range k).foldl g.followAt [(s, [])]) k := by
  induction k with
  | zero => exact ⟨reaches_singleton g s, fun i hi => absurd hi (by omega)⟩
  | succ k ih =>
    rw [List.range_succ, List.foldl_append]
    exact ih.1.followAt ih.2

/-- There are no more variables reached than rules, besides the first. -/
theorem Reaches.length_le (h : g.Reaches s reached) : reached.length ≤ g.rules.length + 1 := by
  -- Each of them is the target of another rule.
  have hsub : reached.tail.map (·.1) ⊆ g.rules.filterMap g.unitTarget? := fun t ht => by
    obtain ⟨rule, hr, htarget⟩ := h.targets t ht
    exact List.mem_filterMap.2 ⟨rule, hr, htarget⟩
  have hnodup : (reached.tail.map (·.1)).Nodup := h.nodup.sublist ((List.tail_sublist _).map _)
  have hle := (List.subperm_of_subset hnodup hsub).length_le
  have hrules := List.length_filterMap_le g.unitTarget? g.rules
  rw [List.length_map, List.length_tail] at hle
  omega

/-- The search reaches every variable that unit rules lead to. -/
theorem mem_unitChains (h : g.UnitChain s chain t) : t ∈ (g.unitChains s).map (·.1) := by
  obtain ⟨hreaches, hfollows⟩ := reaches_foldl_followAt g s (g.rules.length + 1)
  induction h with
  | nil =>
    obtain ⟨rest, hrest⟩ := hreaches.first
    rw [unitChains, hrest]
    simp
  | @snoc chain rule t _ hr htarget ih =>
    obtain ⟨entry, hmem, hlhs⟩ := List.mem_map.1 ih
    obtain ⟨i, hi, hget⟩ := List.getElem_of_mem hmem
    -- There are enough rounds to have followed the variable at the end of the chain.
    have hle := hreaches.length_le
    have hentry : (g.unitChains s)[i]? = some entry := by rw [List.getElem?_eq_getElem hi, hget]
    exact hfollows i (Nat.lt_of_lt_of_le hi hle) entry hentry rule hr hlhs.symm t htarget

theorem reaches_unitChains (g : Grammar) (s : Symbol) : g.Reaches s (g.unitChains s) :=
  (reaches_foldl_followAt g s (g.rules.length + 1)).1

/-- A unit rule in front of a chain makes a longer one. -/
theorem UnitChain.cons {u : Symbol} (hr : rule ∈ g.rules) (ht : g.unitTarget? rule = some t)
    (h : g.UnitChain t chain u) : g.UnitChain rule.lhs (rule :: chain) u := by
  induction h with
  | nil => exact UnitChain.snoc .nil hr ht
  | snoc _ hm htarget ih => exact UnitChain.snoc ih hm htarget

/-! ## Shortcuts -/

/-- Whether a rule is a unit rule depends on its right-hand side alone. -/
theorem isUnitRule_of_rhs_eq {rule' : Rule} (h : rule.rhs = rule'.rhs) :
    g.isUnitRule rule = g.isUnitRule rule' := by
  unfold isUnitRule unitTarget?
  rw [h]

/-- Which rules are unit rules depends on the terminals alone. -/
theorem isUnitRule_congr {g' : Grammar} (ht : g'.isTerminal = g.isTerminal) :
    g'.isUnitRule rule = g.isUnitRule rule := by
  unfold isUnitRule unitTarget? isVariable
  rw [ht]

/-- A shortcut stands for a chain of unit rules and a rule at its end that is not one. -/
theorem exists_of_mem_shortcuts {steps : Derivation} (h : (rule, steps) ∈ g.shortcuts s) :
    ∃ chain, ∃ last ∈ g.rules, g.isUnitRule last = false ∧ g.UnitChain s chain last.lhs ∧
      rule = ⟨s, last.rhs⟩ ∧ steps = chain ++ [last] := by
  obtain ⟨⟨t, chain⟩, hentry, hmap⟩ := List.mem_flatMap.1 h
  obtain ⟨last, hlast, heq⟩ := List.mem_map.1 hmap
  obtain ⟨rfl, rfl⟩ := Prod.mk.inj heq
  obtain ⟨hm, hunit, hlhs⟩ : last ∈ g.rules ∧ g.isUnitRule last = false ∧ last.lhs = t := by
    simpa [rulesFor] using hlast
  have hchain := (reaches_unitChains g s).chains (t, chain) (List.mem_of_mem_tail hentry)
  exact ⟨chain, last, hm, hunit, hlhs ▸ hchain, rfl, rfl⟩

/-- Every rule that is not a unit rule, at the end of a chain to another variable, has a shortcut.
-/
theorem exists_mem_shortcuts (hc : g.UnitChain s chain rule.lhs) (hr : rule ∈ g.rules)
    (hunit : g.isUnitRule rule = false) (hne : rule.lhs ≠ s) :
    ∃ steps, (⟨s, rule.rhs⟩, steps) ∈ g.shortcuts s := by
  obtain ⟨⟨t, chain⟩, hentry, hlhs⟩ := List.mem_map.1 (mem_unitChains hc)
  obtain ⟨rest, hrest⟩ := (reaches_unitChains g s).first
  -- The variable is not the one that the search began with, so it comes after that one.
  have htail : (t, chain) ∈ (g.unitChains s).tail := by
    rw [hrest] at hentry ⊢
    rcases List.mem_cons.1 hentry with heq | hmem
    · exact absurd (hlhs.symm.trans (Prod.mk.inj heq).1) hne
    · exact hmem
  have hmem : rule ∈ (g.rulesFor t).filter fun rule => !g.isUnitRule rule := by
    simpa [rulesFor, hunit] using ⟨hr, hlhs.symm⟩
  exact ⟨chain ++ [rule], List.mem_flatMap.2 ⟨(t, chain), htail, List.mem_map.2 ⟨rule, hmem, rfl⟩⟩⟩

/-! ## The stage -/

/-- The grammar that the elimination of unit rules begins with. -/
def nonUnit (g : Grammar) : Grammar :=
  g.withoutRules.addRules (g.rules.filter fun rule => !g.isUnitRule rule)

theorem mem_nonUnit_iff :
    rule ∈ g.nonUnit.rules ↔ rule ∈ g.rules ∧ g.isUnitRule rule = false := by
  rw [nonUnit, mem_rules_addRules]
  simp [withoutRules]

/-- The draft is the rules that are not unit rules, and the shortcuts of all variables as
candidates. -/
theorem unitDraft_eq (g : Grammar) :
    g.unitDraft =
      (⟨g.nonUnit, []⟩ : Draft Derivation).addAll (g.variableList.flatMap g.shortcuts) :=
  rfl

theorem unitDraft_extends (g : Grammar) : g.unitDraft.Extends g.nonUnit := by
  rw [unitDraft_eq]
  have hnodup : g.nonUnit.rules.Nodup := nodup_addRules List.nodup_nil
  exact (Draft.extends_self hnodup).addAll _

/-- The rules after the elimination of unit rules are distinct. -/
theorem nodup_eliminateUnits (g : Grammar) : g.eliminateUnits.grammar.rules.Nodup :=
  (unitDraft_extends g).nodup_rules

/-- The stage keeps the symbols, the terminals and the start symbol. -/
theorem eliminateUnits_grammar (g : Grammar) :
    g.eliminateUnits.grammar = { g with rules := g.eliminateUnits.grammar.rules } := by
  have hbase := addRules_eq g.withoutRules (g.rules.filter fun rule => !g.isUnitRule rule)
  have hext : g.eliminateUnits.grammar = _ := (unitDraft_extends g).grammar
  rw [nonUnit, hbase] at hext
  rw [hext]
  rfl

@[simp] theorem isTerminal_eliminateUnits : g.eliminateUnits.grammar.isTerminal = g.isTerminal := by
  rw [eliminateUnits_grammar]
  rfl

/-- The notes of the draft are chains of unit rules with another rule at their ends. -/
theorem unitDraft_note {steps : Derivation} (h : (rule, steps) ∈ g.unitDraft.notes) :
    rule.lhs ∈ g.variableList ∧ ∃ chain, ∃ last ∈ g.rules, g.isUnitRule last = false ∧
      steps = chain ++ [last] ∧ g.UnitChain rule.lhs chain last.lhs ∧ last.rhs = rule.rhs := by
  rw [unitDraft_eq] at h
  rcases Draft.mem_notes_addAll h with h | h
  · exact absurd h List.not_mem_nil
  · obtain ⟨s, hs, hmem⟩ := List.mem_flatMap.1 h
    obtain ⟨chain, last, hm, hunit, hchain, rfl, rfl⟩ := exists_of_mem_shortcuts hmem
    exact ⟨hs, chain, last, hm, hunit, rfl, hchain, rfl⟩

/-- The record of the stage explains its rules. -/
theorem eliminateUnits_explains (g : Grammar) :
    g.eliminateUnits.record.Explains g g.eliminateUnits.grammar := by
  intro rule hr
  rcases (unitDraft_extends g).none_or_note hr (.refl _) fun _ h => h with
    ⟨hbase, hnone⟩ | ⟨steps, hnote, hsome⟩
  · exact .inl ⟨(mem_nonUnit_iff.1 hbase).1, hnone⟩
  · obtain ⟨-, chain, last, hm, -, rfl, hchain, hrhs⟩ := unitDraft_note hnote
    exact .inr ⟨chain, last, hm, hsome, hchain, hrhs⟩

/-- A rule after the elimination of unit rules was there before, or it is for a variable that a
chain of unit rules leads from to a rule with the same right-hand side. -/
theorem mem_or_exists_of_mem_eliminateUnits (hr : rule ∈ g.eliminateUnits.grammar.rules) :
    (rule ∈ g.rules ∧ g.isUnitRule rule = false) ∨
      rule.lhs ∈ g.variableList ∧ ∃ chain, ∃ last ∈ g.rules, g.isUnitRule last = false ∧
        g.UnitChain rule.lhs chain last.lhs ∧ last.rhs = rule.rhs := by
  rcases (unitDraft_extends g).none_or_note hr (.refl _) fun _ h => h with
    ⟨hbase, -⟩ | ⟨steps, hnote, -⟩
  · exact .inl (mem_nonUnit_iff.1 hbase)
  · obtain ⟨hvar, chain, last, hm, hunit, -, hchain, hrhs⟩ := unitDraft_note hnote
    exact .inr ⟨hvar, chain, last, hm, hunit, hchain, hrhs⟩

/-- A rule for a variable is there after the elimination of unit rules exactly when a chain of them
leads from the variable to another rule with the same right-hand side. -/
theorem mem_eliminateUnits_iff (hs : rule.lhs ∈ g.variableList) :
    rule ∈ g.eliminateUnits.grammar.rules ↔
      ∃ chain, ∃ last ∈ g.rules, g.isUnitRule last = false ∧
        g.UnitChain rule.lhs chain last.lhs ∧ last.rhs = rule.rhs := by
  constructor
  · intro hr
    rcases mem_or_exists_of_mem_eliminateUnits hr with ⟨hm, hunit⟩ | ⟨-, hchain⟩
    · exact ⟨[], rule, hm, hunit, .nil, rfl⟩
    · exact hchain
  · rintro ⟨chain, last, hm, hunit, hchain, hrhs⟩
    have hrule : rule = ⟨rule.lhs, last.rhs⟩ := by rw [hrhs]
    show rule ∈ g.unitDraft.grammar.rules
    rw [unitDraft_eq, Draft.mem_rules_addAll]
    -- A chain that comes back to the variable ends in a rule that it has anyway.
    by_cases hlhs : last.lhs = rule.lhs
    · have hsame : rule = last := by rw [hrule, ← hlhs]
      exact .inl (mem_nonUnit_iff.2 (hsame ▸ ⟨hm, hunit⟩))
    · obtain ⟨steps, hmem⟩ := exists_mem_shortcuts hchain hm hunit hlhs
      rw [← hrule] at hmem
      exact .inr ⟨steps, List.mem_flatMap.2 ⟨rule.lhs, hs, hmem⟩⟩

/-- No rule is a unit rule after the elimination of unit rules. -/
theorem isUnitRule_eliminateUnits (hr : rule ∈ g.eliminateUnits.grammar.rules) :
    g.isUnitRule rule = false := by
  rcases mem_or_exists_of_mem_eliminateUnits hr with
    ⟨-, hunit⟩ | ⟨-, chain, last, -, hunit, -, hrhs⟩
  · exact hunit
  · rw [← isUnitRule_of_rhs_eq hrhs, hunit]

theorem mem_variableList_iff : s ∈ g.variableList ↔ g.knows s = true ∧ g.isTerminal s = false := by
  rw [variableList, List.mem_filter, SymbolTable.mem_symbols, knows_iff, isVariable,
    Bool.not_eq_true']

/-- The record of the stage has nothing but chains. -/
theorem eliminateUnits_chains (g : Grammar) : g.eliminateUnits.record.Chains g := by
  intro rule steps hget
  have hnodup : (g.unitDraft.notes.map (·.1)).Nodup :=
    (List.nodup_append.1 (unitDraft_extends g).nodup).2.1
  obtain ⟨hvar, chain, last, -, -, hsteps, hchain, hrhs⟩ :=
    unitDraft_note ((RuleMap.getElem?_ofList_eq_some_iff hnodup).1 hget)
  exact ⟨(mem_variableList_iff.1 hvar).2, chain, last, hsteps, hchain, hrhs⟩

/-- Left-hand sides of a valid grammar are among its variables. -/
theorem Valid.lhs_mem_variableList (hg : g.Valid) (hr : rule ∈ g.rules) :
    rule.lhs ∈ g.variableList :=
  mem_variableList_iff.2 (hg.lhs rule hr)

/-- What is spelled stays spelled without unit rules. -/
theorem Spells.eliminateUnits (hg : g.Valid) (h : g.Spells form word) :
    g.eliminateUnits.grammar.Spells form word := by
  have hterm := isTerminal_eliminateUnits (g := g)
  induction h with
  | nil => exact .nil
  | ofTerminal ha _ ih => exact .ofTerminal (hterm ▸ ha) ih
  | @ofRule rule rest part word hm hv _ _ ihHead ihTail =>
    have hvar := hg.lhs_mem_variableList hm
    -- The rule, or the one its variable gets for it, has a right-hand side that spells the part.
    obtain ⟨rule', hr', hlhs, hspells⟩ : ∃ rule' ∈ g.eliminateUnits.grammar.rules,
        rule'.lhs = rule.lhs ∧ g.eliminateUnits.grammar.Spells rule'.rhs part := by
      cases htarget : g.unitTarget? rule with
      | none =>
        have hunit : g.isUnitRule rule = false := by rw [isUnitRule, htarget]; rfl
        exact ⟨rule, (mem_eliminateUnits_iff hvar).2 ⟨[], rule, hm, hunit, .nil, rfl⟩, rfl, ihHead⟩
      | some t =>
        obtain ⟨hrhs, ht⟩ := unitTarget?_eq_some_iff.1 htarget
        rw [hrhs] at ihHead
        obtain ⟨next, hnext, hnextLhs, hbelow⟩ :=
          (yields_iff_spells (by rw [hterm]; exact ht)).2 ihHead
        have hknown : g.knows t = true := hg.rhs rule hm t (by rw [hrhs]; simp)
        have htvar : next.lhs ∈ g.variableList := hnextLhs ▸ mem_variableList_iff.2 ⟨hknown, ht⟩
        obtain ⟨chain, last, hlast, hunit, hchain, hlastRhs⟩ :=
          (mem_eliminateUnits_iff htvar).1 hnext
        -- The rule goes in front of the chain that the next one stands for.
        have hlonger := UnitChain.cons hm htarget (hnextLhs ▸ hchain)
        have hshort : (⟨rule.lhs, next.rhs⟩ : Rule) ∈ g.eliminateUnits.grammar.rules := by
          refine (mem_eliminateUnits_iff ?_).2
            ⟨rule :: chain, last, hlast, hunit, hlonger, hlastRhs⟩
          exact hvar
        exact ⟨⟨rule.lhs, next.rhs⟩, hshort, rfl, hbelow⟩
    have hv' : g.eliminateUnits.grammar.isTerminal rule'.lhs = false := by rw [hterm, hlhs, hv]
    rw [← hlhs]
    exact .ofRule hr' hv' hspells ihTail

/-- Symbols spell what they did before the elimination of unit rules. -/
theorem spells_eliminateUnits_iff (hg : g.Valid) :
    g.eliminateUnits.grammar.Spells form word ↔ g.Spells form word := by
  refine ⟨fun h => ?_, fun h => h.eliminateUnits hg⟩
  obtain ⟨d, hd⟩ := h.exists_derives
  exact ((eliminateUnits_explains g).derives_expandUnits isTerminal_eliminateUnits
    hg.isTerminal_lhs hd).spells

/-- Every rule after the elimination of unit rules has the right-hand side of one before. -/
theorem exists_rhs_eq_of_mem_eliminateUnits (hr : rule ∈ g.eliminateUnits.grammar.rules) :
    ∃ origin ∈ g.rules, origin.rhs = rule.rhs := by
  rcases mem_or_exists_of_mem_eliminateUnits hr with ⟨hm, -⟩ | ⟨-, chain, last, hm, -, -, hrhs⟩
  · exact ⟨rule, hm, rfl⟩
  · exact ⟨last, hm, hrhs⟩

/-- The elimination of unit rules keeps a grammar valid. -/
theorem eliminateUnits_valid (hg : g.Valid) : g.eliminateUnits.grammar.Valid := by
  have hlhs : ∀ rule ∈ g.eliminateUnits.grammar.rules, rule.lhs ∈ g.variableList := by
    intro rule hr
    rcases mem_or_exists_of_mem_eliminateUnits hr with ⟨hm, -⟩ | ⟨hvar, -⟩
    · exact hg.lhs_mem_variableList hm
    · exact hvar
  have hfrom : ∀ rule ∈ g.eliminateUnits.grammar.rules, ∃ origin ∈ g.rules, origin.rhs = rule.rhs :=
    fun rule hr => exists_rhs_eq_of_mem_eliminateUnits hr
  rw [eliminateUnits_grammar] at hlhs hfrom ⊢
  refine ⟨hg.start, fun rule hr => ?_, fun rule hr t ht => ?_⟩
  · exact mem_variableList_iff.1 (hlhs rule hr)
  · obtain ⟨origin, horigin, hrhs⟩ := hfrom rule hr
    exact hg.rhs origin horigin t (hrhs ▸ ht)

end ContextFree.Grammar
