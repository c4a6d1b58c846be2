import ContextFree.Proofs.Grammar.Nullability
import ContextFree.Proofs.Normal.Variants
import Mathlib.Data.List.Find

/-!
# What is recorded about variants

A variant may come about in several ways: from several rules, and from one rule by deleting at other
places. The choices of a rule and of places are listed rule by rule and, for each rule, in counting
order (`Grammar.deletionChoices`). This is the order in which variants are made
(`Grammar.flatMap_variants_eq`), so what is recorded for a variant is the first choice that gives it
(`Grammar.find?_deletionChoices`). The rules with a record are those that are there after the
elimination of nulling rules and were not before (`Grammar.mem_record_eliminateNulling_iff`).
-/

namespace ContextFree

/-- The places of the symbols deleted, as they are listed. -/
def Expansion.places (expansion : Expansion) : List Nat := expansion.deletions.map (·.position)

namespace Grammar

variable {g : Grammar} {rule : Rule} {s : Symbol} {choice : Rule × List Nat} {k : Nat}
  {expansion : Expansion} {rhs left : List Symbol} {deletions : List Deletion}

/-- The subsets of the given places in counting order, without the empty one: the subset with number
`k` has the places whose digits in `k` are ones, where the first place has the lowest digit. -/
def countedSubsets (places : List Nat) : List (List Nat) :=
  (List.range' 1 (2 ^ places.length - 1)).map fun k =>
    (places.zipIdx.filter fun (_, j) => k.testBit j).map (·.1)

/-- The choices of a rule and of places of nullable symbols to delete from it, rule by rule and, for
each rule, in counting order. -/
def deletionChoices (g : Grammar) : List (Rule × List Nat) :=
  g.rules.flatMap fun rule =>
    (countedSubsets (placesIn g.nullable rule)).map fun places => (rule, places)

/-! ## The order of the variants -/

/-- The subsets in counting order are those that are visited. -/
theorem countedSubsets_eq (places : List Nat) :
    countedSubsets places =
      (Subset.visited places.length).map fun subset => subset.select places := by
  rw [countedSubsets, ← Subset.map_number_visited, List.map_map]
  refine List.map_congr_left fun subset _ => ?_
  rw [Subset.select_eq_filter]
  rfl

/-- Witnesses derive the empty word from the nullable symbols. -/
theorem derives_derive_of_mem_nullable (hl : ∀ rule ∈ g.rules, g.isTerminal rule.lhs = false) :
    ∀ s ∈ g.nullable, g.Derives ((Witnesses.ofGrammar g).derive s) [s] [] := by
  intro s hs
  have hsymbols := Witnesses.mem_symbols_ofGrammar_iff.2 hs
  exact Witnesses.derives_derive hl (Witnesses.mem_symbols_iff.1 hsymbols)

/-- The variants are made of the nullable symbols. -/
theorem placesIn_symbols_ofGrammar (rule : Rule) :
    placesIn (Witnesses.ofGrammar g).symbols rule = placesIn g.nullable rule := by
  unfold placesIn
  congr 2
  funext entry
  rw [Bool.eq_iff_iff, SymbolSet.contains_iff, SymbolSet.contains_iff]
  exact Witnesses.mem_symbols_ofGrammar_iff

/-- The variant that a choice gives, with what is recorded for it; none if nothing is left. -/
def variantAt (w : Witnesses) (choice : Rule × List Nat) : Option (Rule × Expansion) :=
  if choice.2.length = choice.1.rhs.length then none
  else some (deleteAt choice.1 choice.2, expansionAt w choice.1 choice.2)

/-- The variants of all rules, in the order in which they are made, are those of the choices. -/
theorem flatMap_variants_eq (g : Grammar) :
    g.rules.flatMap (variants (.ofGrammar g) (Witnesses.ofGrammar g).symbols) =
      g.deletionChoices.filterMap (variantAt (.ofGrammar g)) := by
  rw [deletionChoices, List.filterMap_flatMap]
  refine List.flatMap_congr fun rule _ => ?_
  rw [variants, placesIn_symbols_ofGrammar, countedSubsets_eq, List.map_map,
    List.filterMap_map]
  rfl

/-- The places of a choice are some of the places of nullable symbols, in order. -/
theorem sublist_of_mem_deletionChoices (h : choice ∈ g.deletionChoices) :
    choice.2.Sublist (placesIn g.nullable choice.1) := by
  obtain ⟨rule, -, hmem⟩ := List.mem_flatMap.1 h
  obtain ⟨places, hplaces, rfl⟩ := List.mem_map.1 hmem
  rw [countedSubsets_eq] at hplaces
  obtain ⟨subset, -, rfl⟩ := List.mem_map.1 hplaces
  exact Subset.select_sublist subset _

/-- A choice of all places leaves nothing. -/
theorem rhs_deleteAt_eq_nil (hl : ∀ rule ∈ g.rules, g.isTerminal rule.lhs = false)
    (h : choice ∈ g.deletionChoices) (hall : choice.2.length = choice.1.rhs.length) :
    (deleteAt choice.1 choice.2).rhs = [] := by
  have hdeletes : g.Deletes 0 choice.1.rhs (expansionAt (.ofGrammar g) choice.1 choice.2).deletions
      (deleteAt choice.1 choice.2).rhs :=
    deletes_keptFrom (derives_derive_of_mem_nullable hl) [] (sublist_of_mem_deletionChoices h)
  have hlength := hdeletes.length_eq
  rw [expansionAt, List.length_map] at hlength
  exact List.length_eq_zero_iff.1 (by omega)

/-- What is recorded for a variant is the first choice that gives it. -/
theorem find?_deletionChoices (hl : ∀ rule ∈ g.rules, g.isTerminal rule.lhs = false)
    (h : (rule, expansion) ∈ (g.nullingDraft (.ofGrammar g)).notes) :
    g.deletionChoices.find? (fun choice => deleteAt choice.1 choice.2 = rule) =
      some (expansion.origin, expansion.places) := by
  have hne := (nullingDraft_rule hl h).2.2.2
  rw [nullingDraft_eq, flatMap_variants_eq] at h
  have hfirst := Draft.find?_of_mem_notes (nodup_addRules List.nodup_nil) h
  rw [List.find?_filterMap] at hfirst
  obtain ⟨choice, hchoice, hvariant⟩ := Option.bind_eq_some_iff.1 hfirst
  -- A choice gives the rule exactly when what it leaves is the rule, for the rule is not empty.
  have hsame : ∀ choice ∈ g.deletionChoices,
      (decide (deleteAt choice.1 choice.2 = rule)) =
        (variantAt (.ofGrammar g) choice).any fun c => c.1 = rule := by
    intro choice hmem
    unfold variantAt
    split
    · next hall =>
      refine decide_eq_false fun heq => hne ?_
      rw [← heq]
      exact rhs_deleteAt_eq_nil hl hmem hall
    · rfl
  rw [List.find?_congr hsame, hchoice]
  unfold variantAt at hvariant
  split at hvariant
  · exact absurd hvariant (by simp)
  · obtain ⟨-, rfl⟩ := Prod.mk.inj (Option.some.inj hvariant)
    have hplaces : (expansionAt (.ofGrammar g) choice.1 choice.2).places = choice.2 := by
      simp [Expansion.places, expansionAt, Function.comp_def]
    rw [hplaces]
    rfl

/-! ## The record -/

/-- The record has the notes of the draft on the rules that are left. -/
theorem getElem?_record_eliminateNulling_iff :
    g.eliminateNulling.record[rule]? = some expansion ↔
      (rule, expansion) ∈ (g.nullingDraft (.ofGrammar g)).notes ∧
        rule ∈ g.eliminateNulling.grammar.rules := by
  have hnodup := (List.nodup_append.1 (nullingDraft_extends g (.ofGrammar g)).nodup).2.1
  have hentries : (((g.nullingDraft (.ofGrammar g)).notes.filter fun note =>
      g.eliminateNulling.grammar.contains note.1).map (·.1)).Nodup :=
    hnodup.sublist (List.filter_sublist.map _)
  have hfilter : (rule, expansion) ∈ (g.nullingDraft (.ofGrammar g)).notes.filter (fun note =>
        g.eliminateNulling.grammar.contains note.1) ↔
      (rule, expansion) ∈ (g.nullingDraft (.ofGrammar g)).notes ∧
        rule ∈ g.eliminateNulling.grammar.rules := by
    rw [List.mem_filter, contains, List.contains_iff_mem]
  exact (RuleMap.getElem?_ofList_eq_some_iff hentries).trans hfilter

/-- The rules with a record are those that are left and were not there before. -/
theorem mem_record_eliminateNulling_iff (hl : ∀ rule ∈ g.rules, g.isTerminal rule.lhs = false) :
    rule ∈ g.eliminateNulling.record ↔
      rule ∈ g.eliminateNulling.grammar.rules ∧ rule ∉ g.rules := by
  have hext := nullingDraft_extends g (.ofGrammar g)
  rw [Std.TreeMap.mem_iff_isSome_getElem?, Option.isSome_iff_exists]
  simp only [getElem?_record_eliminateNulling_iff]
  constructor
  · rintro ⟨expansion, hnote, hr⟩
    refine ⟨hr, fun hold => ?_⟩
    -- A rule that was there before and is not nulling has no note.
    have hadded := (hext.mem_map_notes_iff).1 (List.mem_map.2 ⟨_, hnote, rfl⟩)
    exact hadded.2 (mem_nonNulling_iff.2 ⟨hold, (nullingDraft_rule hl hnote).2.2.2⟩)
  · rintro ⟨hr, hnew⟩
    have hadded := (hext.mem_map_notes_iff).2
      ⟨(mem_eliminateNulling_iff.1 hr).1, fun hbase => hnew (mem_nonNulling_iff.1 hbase).1⟩
    obtain ⟨⟨_, expansion⟩, hnote, rfl⟩ := List.mem_map.1 hadded
    exact ⟨expansion, hnote, hr⟩

/-- Deletions are listed by ascending places. -/
theorem Deletes.pairwise_position (h : g.Deletes k rhs deletions left) :
    (deletions.map (·.position)).Pairwise (· < ·) := by
  induction h with
  | nil => exact .nil
  | keep _ ih => exact ih
  | delete _ htail ih =>
    refine List.pairwise_cons.2 ⟨fun i hi => ?_, ih⟩
    obtain ⟨deletion, hm, rfl⟩ := List.mem_map.1 hi
    exact htail.position_le deletion hm

/-- The record of the elimination of nulling rules is exact. It has an entry for each rule that was
not there before and for no other. The entry names a rule from before and ascending places on its
right-hand side whose deletion leaves the rule, with a derivation of the empty word for the symbol
at each place, and of all such choices it is the first one: by the order of the rules and, for one
rule, by the counting order of the places. -/
theorem nullingRecord_exact (hv : g.validate = .ok ()) :
    (∀ rule, rule ∈ g.eliminateNulling.record ↔
      rule ∈ g.eliminateNulling.grammar.rules ∧ rule ∉ g.rules) ∧
    ∀ rule expansion, g.eliminateNulling.record[rule]? = some expansion →
      expansion.origin ∈ g.rules ∧ expansion.origin.lhs = rule.lhs ∧
      expansion.places.Pairwise (· < ·) ∧
      (∀ i ∈ expansion.places, i < expansion.origin.rhs.length) ∧
      deleteAt expansion.origin expansion.places = rule ∧
      (∀ deletion ∈ expansion.deletions, ∃ s,
        expansion.origin.rhs[deletion.position]? = some s ∧
          g.LeftmostDerivation deletion.derivation s []) ∧
      g.deletionChoices.find? (fun choice => deleteAt choice.1 choice.2 = rule) =
        some (expansion.origin, expansion.places) := by
  have hl := (validate_eq_ok_iff.1 hv).isTerminal_lhs
  refine ⟨fun rule => mem_record_eliminateNulling_iff hl, fun rule expansion hget => ?_⟩
  have hnote := (getElem?_record_eliminateNulling_iff.1 hget).1
  obtain ⟨horigin, hlhs, hdeletes, -⟩ := nullingDraft_rule hl hnote
  have hfirst := find?_deletionChoices hl hnote
  have hderives : ∀ deletion ∈ expansion.deletions, ∃ s,
      expansion.origin.rhs[deletion.position]? = some s ∧
        g.Derives deletion.derivation [s] [] := by
    intro deletion hm
    obtain ⟨j, s, hposition, hget, hd⟩ := hdeletes.exists_derives deletion hm
    rw [hposition, Nat.zero_add]
    exact ⟨s, hget, hd⟩
  refine ⟨horigin, hlhs, hdeletes.pairwise_position, fun i hi => ?_, ?_, fun deletion hm => ?_,
    hfirst⟩
  · obtain ⟨deletion, hm, rfl⟩ := List.mem_map.1 hi
    obtain ⟨s, hplace, -⟩ := hderives deletion hm
    exact (List.getElem?_eq_some_iff.1 hplace).1
  · simpa using List.find?_some hfirst
  · obtain ⟨s, hplace, hd⟩ := hderives deletion hm
    exact ⟨s, hplace, leftmostDerivation_iff.2 hd⟩

/-- The rule `S → A b` is left of `S → A A b` by deleting at either of the first two places, and the
first of them is recorded. -/
theorem nullingRecord_exact_fading :
    fading.validate = .ok () ∧ ⟨⟨0⟩, [⟨1⟩, ⟨4⟩]⟩ ∉ fading.rules ∧
      ∃ expansion : Expansion,
        fading.eliminateNulling.record[(⟨⟨0⟩, [⟨1⟩, ⟨4⟩]⟩ : Rule)]? = some expansion ∧
        expansion.origin = ⟨⟨0⟩, [⟨1⟩, ⟨1⟩, ⟨4⟩]⟩ ∧ expansion.places = [0] ∧
        (⟨⟨⟨0⟩, [⟨1⟩, ⟨1⟩, ⟨4⟩]⟩, [1]⟩ : Rule × List Nat) ∈ fading.deletionChoices ∧
        deleteAt ⟨⟨0⟩, [⟨1⟩, ⟨1⟩, ⟨4⟩]⟩ [1] = ⟨⟨0⟩, [⟨1⟩, ⟨4⟩]⟩ ∧
        fading.deletionChoices.find?
            (fun choice => deleteAt choice.1 choice.2 = ⟨⟨0⟩, [⟨1⟩, ⟨4⟩]⟩) =
          some (expansion.origin, expansion.places) := by
  have hv : fading.validate = .ok () := by decide +kernel
  have hget : fading.eliminateNulling.record[(⟨⟨0⟩, [⟨1⟩, ⟨4⟩]⟩ : Rule)]? =
      some ⟨⟨⟨0⟩, [⟨1⟩, ⟨1⟩, ⟨4⟩]⟩, [⟨0, [⟨⟨1⟩, []⟩]⟩]⟩ := by decide +kernel
  obtain ⟨hkeys, hentries⟩ := nullingRecord_exact hv
  have hmem : (⟨⟨0⟩, [⟨1⟩, ⟨4⟩]⟩ : Rule) ∈ fading.eliminateNulling.record := by
    rw [Std.TreeMap.mem_iff_isSome_getElem?, hget]
    rfl
  obtain ⟨-, -, -, -, -, -, hfirst⟩ := hentries _ _ hget
  exact ⟨hv, ((hkeys _).1 hmem).2, _, hget, rfl, rfl, by decide +kernel, by decide +kernel, hfirst⟩

end Grammar

end ContextFree
