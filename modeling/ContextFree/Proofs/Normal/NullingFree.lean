import ContextFree.Normal.NullingFree
import ContextFree.Proofs.Grammar.Closure
import ContextFree.Proofs.Grammar.Construction
import ContextFree.Proofs.Normal.Stage
import ContextFree.Proofs.Normal.Subset
import ContextFree.Proofs.Normal.Witness
import ContextFree.Proofs.Provenance.Restore

/-!
# Eliminating nulling rules loses the empty word and nothing else

The variants of a rule are what is left when symbols with witnesses are deleted from its right-hand
side: each variant comes about by such deletions (`Grammar.deletes_of_mem_variants`), and all of
them but the empty one are made (`Grammar.exists_mem_variants`). So the record explains every rule
(`Grammar.eliminateNulling_explains`), and a word that is not empty is still spelled after some
symbols are deleted (`Grammar.Spells.nullingDraft`). Together a variable spells what it did before,
except for the empty word (`Grammar.spells_eliminateNulling_iff`).
-/

namespace ContextFree.Grammar

variable {g : Grammar} {w : Witnesses} {nullable : SymbolSet} {rule : Rule} {s : Symbol}
  {k : Nat} {places : List Nat} {rhs left form word : List Symbol} {deletions : List Deletion}

/-! ## Places and what is left -/

/-- The places of symbols of a set, where the first symbol has place `k`. -/
def placesFrom (set : SymbolSet) (k : Nat) (rhs : List Symbol) : List Nat :=
  ((rhs.zipIdx k).filter fun (s, _) => set.contains s).map (·.2)

/-- The symbols that are not at the given places, where the first symbol has place `k`. -/
def keptFrom (places : List Nat) (k : Nat) (rhs : List Symbol) : List Symbol :=
  ((rhs.zipIdx k).filter fun (_, i) => !places.contains i).map (·.1)

theorem placesFrom_cons_of_mem (hs : s ∈ nullable) :
    placesFrom nullable k (s :: rhs) = k :: placesFrom nullable (k + 1) rhs := by
  have hc : nullable.contains s = true := SymbolSet.contains_iff.2 hs
  simp [placesFrom, List.zipIdx_cons, hc]

theorem placesFrom_cons_of_not_mem (hs : s ∉ nullable) :
    placesFrom nullable k (s :: rhs) = placesFrom nullable (k + 1) rhs := by
  have hc : ¬nullable.contains s = true := fun h => hs (SymbolSet.contains_iff.1 h)
  simp [placesFrom, List.zipIdx_cons, hc]

/-- Places are counted from the first one on. -/
theorem le_of_mem_placesFrom {i : Nat} (h : i ∈ placesFrom nullable k rhs) : k ≤ i := by
  obtain ⟨⟨s, j⟩, hmem, rfl⟩ := List.mem_map.1 h
  exact (List.mem_zipIdx (List.mem_filter.1 hmem).1).1

theorem keptFrom_cons_of_mem (hk : k ∈ places) :
    keptFrom places k (s :: rhs) = keptFrom places (k + 1) rhs := by
  simp [keptFrom, List.zipIdx_cons, hk]

theorem keptFrom_cons_of_not_mem (hk : k ∉ places) :
    keptFrom places k (s :: rhs) = s :: keptFrom places (k + 1) rhs := by
  simp [keptFrom, List.zipIdx_cons, hk]

/-- A place before the first symbol keeps none of the symbols out. -/
theorem keptFrom_cons_place {i : Nat} (hi : i < k) :
    keptFrom (i :: places) k rhs = keptFrom places k rhs := by
  induction rhs generalizing k with
  | nil => rfl
  | cons s rhs ih =>
    have hmem : k ∈ i :: places ↔ k ∈ places := by
      refine ⟨fun h => (List.mem_cons.1 h).resolve_left (by omega), List.mem_cons_of_mem _⟩
    by_cases hk : k ∈ places
    · rw [keptFrom_cons_of_mem (hmem.2 hk), keptFrom_cons_of_mem hk, ih (by omega)]
    · rw [keptFrom_cons_of_not_mem fun h => hk (hmem.1 h), keptFrom_cons_of_not_mem hk,
        ih (by omega)]

/-- Deleting symbols with witnesses at some places is a deletion by the derivations that their
witnesses give. The symbols before the first place are `front`. -/
theorem deletes_keptFrom (hw : ∀ s ∈ nullable, g.Derives (w.derive s) [s] []) (front : List Symbol)
    (hsub : places.Sublist (placesFrom nullable front.length rhs)) :
    g.Deletes front.length rhs
      (places.map fun i => ⟨i, (front ++ rhs)[i]?.elim [] w.derive⟩)
      (keptFrom places front.length rhs) := by
  induction rhs generalizing front places with
  | nil =>
    have hnil : places = [] := List.sublist_nil.1 hsub
    subst hnil
    exact .nil
  | cons s rhs ih =>
    have hfront : front ++ s :: rhs = (front ++ [s]) ++ rhs := by
      rw [List.append_assoc, List.singleton_append]
    have hlength : (front ++ [s]).length = front.length + 1 := by simp
    -- Both when the symbol cannot be deleted and when it is not, the places are all further on.
    have hkeep : places.Sublist (placesFrom nullable (front.length + 1) rhs) →
        g.Deletes front.length (s :: rhs)
          (places.map fun i => ⟨i, (front ++ s :: rhs)[i]?.elim [] w.derive⟩)
          (keptFrom places front.length (s :: rhs)) := by
      intro hlater
      have hnot : front.length ∉ places := fun h =>
        absurd (le_of_mem_placesFrom (hlater.subset h)) (by omega)
      rw [keptFrom_cons_of_not_mem hnot, hfront, ← hlength]
      rw [← hlength] at hlater
      have htail := ih (front ++ [s]) hlater
      rw [hlength] at htail ⊢
      exact .keep htail
    by_cases hs : s ∈ nullable
    · rw [placesFrom_cons_of_mem hs] at hsub
      cases hsub with
      | cons _ hlater => exact hkeep hlater
      | @cons_cons places _ _ hlater =>
        rw [← hlength] at hlater
        have htail := ih (front ++ [s]) hlater
        have hget : (front ++ s :: rhs)[front.length]? = some s := by simp
        rw [List.map_cons, keptFrom_cons_of_mem (by simp), keptFrom_cons_place (by omega), hget,
          hfront]
        rw [hlength] at htail
        exact .delete (hw s hs) htail
    · rw [placesFrom_cons_of_not_mem hs] at hsub
      exact hkeep hsub

/-- What deletions leave is left by deleting the places of some subset of those of the set, if the
set has all symbols that derive the empty word. -/
theorem Deletes.exists_subset (h : g.Deletes k rhs deletions left)
    (hw : ∀ s d, g.Derives d [s] [] → s ∈ nullable) :
    ∃ subset : Subset, subset.length = (placesFrom nullable k rhs).length ∧
      keptFrom (subset.select (placesFrom nullable k rhs)) k rhs = left ∧
      (subset.select (placesFrom nullable k rhs)).length = deletions.length := by
  induction h with
  | nil => exact ⟨[], rfl, rfl, rfl⟩
  | @keep k s rhs left deletions _ ih =>
    -- A symbol that is kept has a place to leave out, if it could have been deleted.
    obtain ⟨subset, hlength, hkept, hcount⟩ := ih
    have hnot : k ∉ subset.select (placesFrom nullable (k + 1) rhs) := fun hk =>
      absurd (le_of_mem_placesFrom ((Subset.select_sublist _ _).subset hk)) (by omega)
    by_cases hs : s ∈ nullable
    · refine ⟨false :: subset, ?_, ?_, ?_⟩
      · rw [placesFrom_cons_of_mem hs, List.length_cons, List.length_cons, hlength]
      · rw [placesFrom_cons_of_mem hs, Subset.select_false, keptFrom_cons_of_not_mem hnot, hkept]
      · rw [placesFrom_cons_of_mem hs, Subset.select_false, hcount]
    · rw [placesFrom_cons_of_not_mem hs]
      refine ⟨subset, hlength, ?_, hcount⟩
      rw [keptFrom_cons_of_not_mem hnot, hkept]
  | @delete k s rhs left deletions d hd _ ih =>
    obtain ⟨subset, hlength, hkept, hcount⟩ := ih
    have hs : s ∈ nullable := hw s d hd
    refine ⟨true :: subset, ?_, ?_, ?_⟩
    · rw [placesFrom_cons_of_mem hs, List.length_cons, List.length_cons, hlength]
    · rw [placesFrom_cons_of_mem hs, Subset.select_true, keptFrom_cons_of_mem (by simp),
        keptFrom_cons_place (by omega), hkept]
    · rw [placesFrom_cons_of_mem hs, Subset.select_true, List.length_cons, List.length_cons, hcount]

/-! ## Variants -/

/-- The variants of a rule, each with how it comes from the rule, in the order in which they are
made. -/
def variants (w : Witnesses) (nullable : SymbolSet) (rule : Rule) : List (Rule × Expansion) :=
  (Subset.visited (placesIn nullable rule).length).filterMap fun subset =>
    let places := subset.select (placesIn nullable rule)
    if places.length = rule.rhs.length then none
    else some (deleteAt rule places, expansionAt w rule places)

/-- Adding the variants of a rule is adding a list of candidates. -/
theorem addVariants_eq (d : Draft Expansion) (rule : Rule) :
    addVariants w nullable d rule = d.addAll (variants w nullable rule) := by
  rw [addVariants, Subset.fold_eq_foldl, Draft.addAll, variants, List.foldl_filterMap]
  congr 1
  funext d subset
  rw [addVariant]
  dsimp only
  split <;> rfl

/-- The grammar that the elimination of nulling rules begins with. -/
def nonNulling (g : Grammar) : Grammar :=
  g.withoutRules.addRules (g.rules.filter fun rule => !rule.isNulling)

theorem mem_nonNulling_iff : rule ∈ g.nonNulling.rules ↔ rule ∈ g.rules ∧ rule.rhs ≠ [] := by
  rw [nonNulling, mem_rules_addRules]
  simp [withoutRules, Rule.isNulling]

/-- The draft is the rules that are not nulling, and the variants of all rules as candidates. -/
theorem nullingDraft_eq (g : Grammar) (w : Witnesses) :
    g.nullingDraft w =
      (⟨g.nonNulling, []⟩ : Draft Expansion).addAll (g.rules.flatMap (variants w w.symbols)) := by
  rw [Draft.addAll, List.foldl_flatMap, nullingDraft]
  congr 1
  funext d rule
  exact addVariants_eq d rule

theorem nullingDraft_extends (g : Grammar) (w : Witnesses) :
    (g.nullingDraft w).Extends g.nonNulling := by
  rw [nullingDraft_eq]
  have hnodup : g.nonNulling.rules.Nodup := nodup_addRules List.nodup_nil
  exact (Draft.extends_self hnodup).addAll _

/-- The elimination of nulling rules keeps the symbols, the terminals and the start symbol. -/
theorem nullingDraft_grammar (g : Grammar) (w : Witnesses) :
    (g.nullingDraft w).grammar = { g with rules := (g.nullingDraft w).grammar.rules } := by
  have hbase := addRules_eq g.withoutRules (g.rules.filter fun rule => !rule.isNulling)
  have hext := (nullingDraft_extends g w).grammar
  rw [nonNulling, hbase] at hext
  rw [hext]
  rfl

theorem isTerminal_nullingDraft (g : Grammar) (w : Witnesses) :
    (g.nullingDraft w).grammar.isTerminal = g.isTerminal := by
  rw [nullingDraft_grammar]
  rfl

/-- A variant is what deletions leave of the rule it comes from, and something is left. -/
theorem deletes_of_mem_variants (hw : ∀ s ∈ nullable, g.Derives (w.derive s) [s] [])
    {variant : Rule} {expansion : Expansion} (h : (variant, expansion) ∈ variants w nullable rule) :
    expansion.origin = rule ∧ variant.lhs = rule.lhs ∧
      g.Deletes 0 rule.rhs expansion.deletions variant.rhs ∧ variant.rhs ≠ [] := by
  obtain ⟨subset, -, hsome⟩ := List.mem_filterMap.1 h
  dsimp only at hsome
  generalize hplaces : subset.select (placesIn nullable rule) = places at hsome
  split at hsome
  · exact absurd hsome (by simp)
  · next hcount =>
    obtain ⟨rfl, rfl⟩ := Prod.mk.inj (Option.some.inj hsome)
    have hsub : places.Sublist (placesFrom nullable 0 rule.rhs) :=
      hplaces ▸ Subset.select_sublist subset _
    have hdeletes : g.Deletes 0 rule.rhs (expansionAt w rule places).deletions
        (deleteAt rule places).rhs := deletes_keptFrom hw [] hsub
    refine ⟨rfl, rfl, hdeletes, fun hnil => ?_⟩
    -- If nothing were left, there would be a place for each symbol.
    have hlength := hdeletes.length_eq
    rw [hnil, expansionAt, List.length_map, List.length_nil, Nat.add_zero] at hlength
    exact hcount hlength.symm

/-- What deletions leave of a rule is a variant of it, unless they leave nothing or delete nothing.
-/
theorem exists_mem_variants (hw : ∀ s d, g.Derives d [s] [] → s ∈ nullable)
    (h : g.Deletes 0 rule.rhs deletions left) (hleft : left ≠ []) (hsome : deletions ≠ []) :
    ∃ expansion, (⟨rule.lhs, left⟩, expansion) ∈ variants w nullable rule := by
  obtain ⟨subset, hlength, hkept, hcount⟩ := h.exists_subset hw
  have hplaces : placesFrom nullable 0 rule.rhs = placesIn nullable rule := rfl
  rw [hplaces] at hlength hkept hcount
  -- Something is deleted, so the subset is not the empty one.
  have hvisited : subset ∈ Subset.visited (placesIn nullable rule).length := by
    refine Subset.mem_visited_iff.2 ⟨hlength, fun hempty => ?_⟩
    rw [hempty, Subset.select_empty] at hcount
    exact hsome (List.length_eq_zero_iff.1 hcount.symm)
  -- Something is left, so not every symbol is deleted and the variant is not skipped.
  have hproper : ¬(subset.select (placesIn nullable rule)).length = rule.rhs.length := by
    have htotal := h.length_eq
    have hpos : left.length ≠ 0 := fun hzero => hleft (List.length_eq_zero_iff.1 hzero)
    omega
  have hvariant : deleteAt rule (subset.select (placesIn nullable rule)) = ⟨rule.lhs, left⟩ :=
    congrArg (Rule.mk rule.lhs) hkept
  refine ⟨expansionAt w rule (subset.select (placesIn nullable rule)),
    List.mem_filterMap.2 ⟨subset, hvisited, ?_⟩⟩
  dsimp only
  rw [if_neg hproper, hvariant]

/-! ## The stage -/

/-- Rules after the stage are rules of its draft over symbols that derive some word there. -/
theorem mem_eliminateNulling_iff :
    rule ∈ g.eliminateNulling.grammar.rules ↔
      rule ∈ (g.nullingDraft (.ofGrammar g)).grammar.rules ∧
        ∀ s ∈ rule.rhs, s ∈ (g.nullingDraft (.ofGrammar g)).grammar.productive := by
  simp [eliminateNulling, retain]

/-- The stage keeps the symbols, the terminals and the start symbol. -/
theorem eliminateNulling_grammar (g : Grammar) :
    g.eliminateNulling.grammar = { g with rules := g.eliminateNulling.grammar.rules } := by
  have hdraft := nullingDraft_grammar g (.ofGrammar g)
  have hstage : g.eliminateNulling.grammar =
      { (g.nullingDraft (.ofGrammar g)).grammar with
        rules := g.eliminateNulling.grammar.rules } := rfl
  rw [hdraft] at hstage
  exact hstage

@[simp] theorem isTerminal_eliminateNulling :
    g.eliminateNulling.grammar.isTerminal = g.isTerminal := by
  rw [eliminateNulling_grammar]
  rfl

/-- The rules after the elimination of nulling rules are distinct. -/
theorem nodup_eliminateNulling (g : Grammar) : g.eliminateNulling.grammar.rules.Nodup :=
  (nullingDraft_extends g _).nodup_rules.sublist List.filter_sublist

/-- A rule of the draft was there before and is not nulling, or it has a note of a rule that it
comes from by deletions. -/
theorem nullingDraft_rule (hl : ∀ rule ∈ g.rules, g.isTerminal rule.lhs = false)
    {expansion : Expansion} (h : (rule, expansion) ∈ (g.nullingDraft (.ofGrammar g)).notes) :
    expansion.origin ∈ g.rules ∧ expansion.origin.lhs = rule.lhs ∧
      g.Deletes 0 expansion.origin.rhs expansion.deletions rule.rhs ∧ rule.rhs ≠ [] := by
  rw [nullingDraft_eq] at h
  rcases Draft.mem_notes_addAll h with h | h
  · exact absurd h List.not_mem_nil
  · obtain ⟨origin, horigin, hmem⟩ := List.mem_flatMap.1 h
    have hw : ∀ s ∈ (Witnesses.ofGrammar g).symbols,
        g.Derives ((Witnesses.ofGrammar g).derive s) [s] [] := fun s hs =>
      Witnesses.derives_derive hl (Witnesses.mem_symbols_iff.1 hs)
    obtain ⟨rfl, hlhs, hdeletes, hne⟩ := deletes_of_mem_variants hw hmem
    exact ⟨horigin, hlhs.symm, hdeletes, hne⟩

/-- The record of the stage explains its rules. -/
theorem eliminateNulling_explains (hl : ∀ rule ∈ g.rules, g.isTerminal rule.lhs = false) :
    g.eliminateNulling.record.Explains g g.eliminateNulling.grammar := by
  intro rule hr
  have hdraft : rule ∈ (g.nullingDraft (.ofGrammar g)).grammar.rules :=
    (mem_eliminateNulling_iff.1 hr).1
  have hentry := (nullingDraft_extends g (.ofGrammar g)).none_or_note hdraft
    (List.filter_sublist (p := fun n => g.eliminateNulling.grammar.contains n.1))
    fun note hnote => List.mem_filter.2 ⟨hnote, List.contains_iff_mem.2 hr⟩
  rcases hentry with ⟨hbase, hnone⟩ | ⟨expansion, hnote, hsome⟩
  · exact .inl ⟨(mem_nonNulling_iff.1 hbase).1, hnone⟩
  · obtain ⟨horigin, hlhs, hdeletes, -⟩ := nullingDraft_rule hl hnote
    exact .inr ⟨expansion, hsome, horigin, hlhs, hdeletes⟩

/-- No rule of the draft is nulling. -/
theorem nullingDraft_rhs_ne_nil (hl : ∀ rule ∈ g.rules, g.isTerminal rule.lhs = false)
    (hr : rule ∈ (g.nullingDraft (.ofGrammar g)).grammar.rules) : rule.rhs ≠ [] := by
  have hentry := (nullingDraft_extends g (.ofGrammar g)).none_or_note hr (.refl _) fun _ h => h
  rcases hentry with ⟨hbase, -⟩ | ⟨expansion, hnote, -⟩
  · exact (mem_nonNulling_iff.1 hbase).2
  · exact (nullingDraft_rule hl hnote).2.2.2

/-- What deletions leave of the right-hand side of a rule is in the draft, unless it is empty. -/
theorem mem_nullingDraft_of_deletes (hr : rule ∈ g.rules) (h : g.Deletes 0 rule.rhs deletions left)
    (hleft : left ≠ []) :
    (⟨rule.lhs, left⟩ : Rule) ∈ (g.nullingDraft (.ofGrammar g)).grammar.rules := by
  rw [nullingDraft_eq, Draft.mem_rules_addAll]
  by_cases hnone : deletions = []
  · subst hnone
    have hsame : left = rule.rhs := h.eq_of_nil
    rw [hsame] at hleft ⊢
    exact .inl (mem_nonNulling_iff.2 ⟨hr, hleft⟩)
  · have hw : ∀ s d, g.Derives d [s] [] → s ∈ (Witnesses.ofGrammar g).symbols := fun s d hd =>
      Witnesses.mem_symbols_iff.2 (Witnesses.covers_of_spells hd.spells s (by simp))
    obtain ⟨expansion, hmem⟩ := exists_mem_variants hw h hleft hnone
    exact .inr ⟨expansion, List.mem_flatMap.2 ⟨rule, hr, hmem⟩⟩

/-- A word is spelled in the draft by what is left of the symbols when those with an empty part of
it are deleted, and something is left unless the word is empty. -/
theorem Spells.nullingDraft (h : g.Spells form word) (k : Nat) :
    ∃ deletions left, g.Deletes k form deletions left ∧
      (g.nullingDraft (.ofGrammar g)).grammar.Spells left word ∧ (word = [] → left = []) := by
  have hterm := isTerminal_nullingDraft g (.ofGrammar g)
  induction h generalizing k with
  | nil => exact ⟨[], [], .nil, .nil, fun _ => rfl⟩
  | ofTerminal ha _ ih =>
    obtain ⟨deletions, left, hdeletes, hspells, -⟩ := ih (k + 1)
    exact ⟨deletions, _, .keep hdeletes, .ofTerminal (hterm ▸ ha) hspells,
      fun hw => absurd hw (by simp)⟩
  | @ofRule rule rest part word hm hv head _ ihHead ihTail =>
    obtain ⟨deletions, left, hdeletes, hspells, hempty⟩ := ihTail (k + 1)
    by_cases hpart : part = []
    · -- The variable's part is empty, so the variable is deleted.
      subst hpart
      have hnode : g.Spells [rule.lhs] [] := .ofRule hm hv head .nil
      obtain ⟨d, hd⟩ := hnode.exists_derives
      exact ⟨_, left, .delete hd hdeletes, hspells, hempty⟩
    · -- The variable is kept, and the variant with what is left of the right-hand side replaces it.
      obtain ⟨below, leftBelow, hbelow, hspellsBelow, -⟩ := ihHead 0
      have hne : leftBelow ≠ [] := by
        rintro rfl
        exact hpart (spells_nil_iff.1 hspellsBelow)
      have hvariant := mem_nullingDraft_of_deletes hm hbelow hne
      refine ⟨deletions, rule.lhs :: left, .keep hdeletes, ?_, fun hw => ?_⟩
      · have hv' : (g.nullingDraft (.ofGrammar g)).grammar.isTerminal rule.lhs = false := hterm ▸ hv
        show Spells _ ((⟨rule.lhs, leftBelow⟩ : Rule).lhs :: left) (part ++ word)
        exact .ofRule hvariant hv' hspellsBelow hspells
      · exact absurd (List.append_eq_nil_iff.1 hw).1 hpart

/-- Rules over symbols that derive no word in the draft are in no derivation of one. -/
theorem Spells.eliminateNulling (h : (g.nullingDraft (.ofGrammar g)).grammar.Spells form word) :
    g.eliminateNulling.grammar.Spells form word := by
  induction h with
  | nil => exact .nil
  | ofTerminal ha _ ih => exact .ofTerminal ha ih
  | @ofRule rule rest part word hm hv head _ ihHead ihTail =>
    exact .ofRule (mem_eliminateNulling_iff.2 ⟨hm, head.mem_productive⟩) hv ihHead ihTail

/-- A variable spells what it did before the elimination of nulling rules, except for the empty
word. -/
theorem spells_eliminateNulling_iff (hl : ∀ rule ∈ g.rules, g.isTerminal rule.lhs = false) :
    g.eliminateNulling.grammar.Spells [s] word ↔ g.Spells [s] word ∧ word ≠ [] := by
  constructor
  · intro h
    obtain ⟨d, hd⟩ := h.exists_derives
    obtain ⟨parts, -, hparts⟩ :=
      (eliminateNulling_explains hl).derives_restore isTerminal_eliminateNulling hd
    refine ⟨hparts.spells, h.ne_nil (fun rule hr => ?_) (by simp)⟩
    exact nullingDraft_rhs_ne_nil hl (mem_eliminateNulling_iff.1 hr).1
  · rintro ⟨h, hword⟩
    obtain ⟨deletions, left, hdeletes, hspells, -⟩ := h.nullingDraft 0
    -- The symbol is kept, for nothing spells the empty word only.
    cases hdeletes with
    | keep htail =>
      cases htail
      exact hspells.eliminateNulling
    | delete _ htail =>
      cases htail
      exact absurd (spells_nil_iff.1 hspells) hword

/-- Left-hand sides of the draft are variables. -/
theorem isTerminal_lhs_nullingDraft (hl : ∀ rule ∈ g.rules, g.isTerminal rule.lhs = false)
    (hr : rule ∈ (g.nullingDraft (.ofGrammar g)).grammar.rules) :
    (g.nullingDraft (.ofGrammar g)).grammar.isTerminal rule.lhs = false := by
  have hentry := (nullingDraft_extends g (.ofGrammar g)).none_or_note hr (.refl _) fun _ h => h
  rw [isTerminal_nullingDraft]
  rcases hentry with ⟨hbase, -⟩ | ⟨expansion, hnote, -⟩
  · exact hl rule (mem_nonNulling_iff.1 hbase).1
  · obtain ⟨horigin, hlhs, -⟩ := nullingDraft_rule hl hnote
    exact hlhs ▸ hl _ horigin

/-- Every symbol on the right-hand side of a rule after the stage spells some word there. -/
theorem exists_spells_eliminateNulling (hl : ∀ rule ∈ g.rules, g.isTerminal rule.lhs = false)
    (hr : rule ∈ g.eliminateNulling.grammar.rules) (hs : s ∈ rule.rhs) :
    ∃ word, g.eliminateNulling.grammar.Spells [s] word := by
  have hproductive := (mem_eliminateNulling_iff.1 hr).2 s hs
  obtain ⟨word, hword⟩ :=
    (mem_productive_iff fun rule hr => isTerminal_lhs_nullingDraft hl hr).1 hproductive
  exact ⟨word, hword.eliminateNulling⟩

/-- The elimination of nulling rules keeps a grammar valid. -/
theorem eliminateNulling_valid (hg : g.Valid) : g.eliminateNulling.grammar.Valid := by
  -- Every rule has the left-hand side of one before, and symbols of its right-hand side.
  have hfrom : ∀ rule ∈ g.eliminateNulling.grammar.rules,
      ∃ origin ∈ g.rules, origin.lhs = rule.lhs ∧ rule.rhs.Sublist origin.rhs := by
    intro rule hr
    rcases eliminateNulling_explains hg.isTerminal_lhs rule hr with
      ⟨hm, -⟩ | ⟨expansion, -, horigin, hlhs, hdeletes⟩
    · exact ⟨rule, hm, rfl, .refl _⟩
    · exact ⟨expansion.origin, horigin, hlhs, hdeletes.sublist⟩
  rw [eliminateNulling_grammar] at hfrom ⊢
  refine ⟨hg.start, fun rule hr => ?_, fun rule hr t ht => ?_⟩
  · obtain ⟨origin, horigin, hlhs, -⟩ := hfrom rule hr
    exact hlhs ▸ hg.lhs origin horigin
  · obtain ⟨origin, horigin, -, hsub⟩ := hfrom rule hr
    exact hg.rhs origin horigin t (hsub.subset ht)

end ContextFree.Grammar
