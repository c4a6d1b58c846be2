import ContextFree.Normal.Stage
import ContextFree.Rule
import Mathlib.Data.List.Nodup
import Std.Data.TreeMap.Lemmas

/-!
# Drafts and their records

A draft adds the rules of a list of candidates, each with its note, to a grammar. It keeps the
grammar it began with and puts the rules added behind its rules, all of them different
(`Draft.Extends`). A rule of the draft is therefore either one the draft began with, and then its
record has no entry, or one that was added, and then the entry is its note
(`Draft.Extends.none_or_note`). Of several candidates with one rule, the first one counts
(`Draft.find?_of_mem_notes`).
-/

namespace ContextFree

namespace RuleMap

variable {α : Type} {entries : List (Rule × α)} {rule : Rule} {value : α}

/-- A rule has an entry in the map of a list without repeated rules exactly when the list has it. -/
theorem getElem?_ofList_eq_some_iff (hd : (entries.map (·.1)).Nodup) :
    (Std.TreeMap.ofList entries : RuleMap α)[rule]? = some value ↔ (rule, value) ∈ entries := by
  have hpair : entries.Pairwise fun a b => ¬compare a.1 b.1 = .eq := by
    refine (List.pairwise_map.1 hd).imp fun hne heq => hne ?_
    exact Std.LawfulEqOrd.eq_of_compare heq
  have hget : ∀ {v : α}, (rule, v) ∈ entries →
      (Std.TreeMap.ofList entries : RuleMap α)[rule]? = some v := fun hmem =>
    Std.TreeMap.getElem?_ofList_of_mem Std.ReflCmp.compare_self hpair hmem
  refine ⟨fun h => ?_, hget⟩
  -- The rule of an entry is among the rules of the list, so the list has an entry for it.
  have hkey : rule ∈ (Std.TreeMap.ofList entries : RuleMap α) := by
    rw [Std.TreeMap.mem_iff_isSome_getElem?, h]
    rfl
  have hmem : rule ∈ entries.map (·.1) := by simpa using Std.TreeMap.mem_ofList.1 hkey
  obtain ⟨⟨r, v⟩, hv, rfl⟩ := List.mem_map.1 hmem
  rw [hget hv] at h
  rwa [Option.some.inj h] at hv

/-- A rule has no entry in the map of a list that does not have it. -/
theorem getElem?_ofList_eq_none (h : rule ∉ entries.map (·.1)) :
    (Std.TreeMap.ofList entries : RuleMap α)[rule]? = none := by
  refine Std.TreeMap.getElem?_ofList_of_contains_eq_false ?_
  rw [Bool.eq_false_iff]
  intro hc
  exact h (List.contains_iff_mem.1 hc)

end RuleMap

namespace Grammar

variable {g : Grammar} {rules : List Rule}

/-- The rules there after adding some are those before and those added. -/
theorem mem_rules_addRules {rule : Rule} :
    rule ∈ (g.addRules rules).rules ↔ rule ∈ g.rules ∨ rule ∈ rules := by
  induction rules generalizing g with
  | nil => simp [addRules]
  | cons r rules ih =>
    have hstep : g.addRules (r :: rules) = (g.addRule r).addRules rules := rfl
    rw [hstep, ih, mem_rules_addRule, List.mem_cons, or_assoc]

/-- Adding rules changes nothing but the rules, and keeps these distinct. -/
theorem addRules_eq (g : Grammar) (rules : List Rule) :
    g.addRules rules = { g with rules := (g.addRules rules).rules } := by
  induction rules generalizing g with
  | nil => rfl
  | cons r rules ih =>
    have hstep : g.addRules (r :: rules) = (g.addRule r).addRules rules := rfl
    rw [hstep, ih, symbols_addRule, terminals_addRule, start_addRule]

theorem nodup_addRules (h : g.rules.Nodup) : (g.addRules rules).rules.Nodup := by
  induction rules generalizing g with
  | nil => exact h
  | cons r rules ih => exact ih (nodup_addRule r h)

end Grammar

namespace Draft

variable {α : Type} {base : Grammar} {d : Draft α} {rule : Rule} {note : α}
  {candidates : List (Rule × α)}

/-- Adds rules with their notes, one after the other. -/
def addAll (d : Draft α) (candidates : List (Rule × α)) : Draft α :=
  candidates.foldl (fun d c => d.add c.1 fun _ => c.2) d

/-- The draft began with the given grammar: it has its symbols, terminals and start, and the rules
added stand behind its rules. No rule is there twice. -/
structure Extends (d : Draft α) (base : Grammar) : Prop where
  /-- Only rules were added. -/
  grammar : d.grammar = { base with rules := base.rules ++ d.notes.map (·.1) }
  /-- The rules are distinct. -/
  nodup : (base.rules ++ d.notes.map (·.1)).Nodup

theorem Extends.nodup_rules (h : d.Extends base) : d.grammar.rules.Nodup := by
  rw [h.grammar]
  exact h.nodup

/-- A draft without notes extends its own grammar. -/
theorem extends_self (h : base.rules.Nodup) : (⟨base, []⟩ : Draft α).Extends base := by
  refine ⟨?_, ?_⟩
  · rw [List.map_nil, List.append_nil]
  · rwa [List.map_nil, List.append_nil]

/-- Adding a rule that is there changes nothing; any other is put at the end with its note. -/
theorem add_eq (d : Draft α) (rule : Rule) (note : α) :
    d.add rule (fun _ => note) =
      if rule ∈ d.grammar.rules then d
      else ⟨{ d.grammar with rules := d.grammar.rules ++ [rule] }, d.notes ++ [(rule, note)]⟩ := by
  unfold add Grammar.addRule? Grammar.contains
  by_cases h : rule ∈ d.grammar.rules
  · rw [if_pos h, if_pos (List.contains_iff_mem.2 h)]
  · rw [if_neg h, if_neg fun hc => h (List.contains_iff_mem.1 hc)]

/-- Adding a rule keeps what a draft began with. -/
theorem Extends.add (h : d.Extends base) (rule : Rule) (note : α) :
    (d.add rule fun _ => note).Extends base := by
  rw [add_eq]
  split
  · exact h
  · next hnew =>
    have hrules : d.grammar.rules = base.rules ++ d.notes.map (·.1) := by rw [h.grammar]
    refine ⟨?_, ?_⟩
    · rw [h.grammar]
      simp
    · rw [List.map_append, ← List.append_assoc, ← hrules, List.nodup_append]
      refine ⟨hrules ▸ h.nodup, by simp, fun a ha b hb => ?_⟩
      rw [List.map_singleton, List.mem_singleton] at hb
      intro hab
      rw [hab, hb] at ha
      exact hnew ha

/-- Adding candidates keeps what a draft began with. -/
theorem Extends.addAll (h : d.Extends base) (candidates : List (Rule × α)) :
    (d.addAll candidates).Extends base := by
  induction candidates generalizing d with
  | nil => exact h
  | cons c candidates ih => exact ih (h.add c.1 c.2)

/-- The rules of a draft after adding candidates are those before and the candidates'. -/
theorem mem_rules_addAll :
    rule ∈ (d.addAll candidates).grammar.rules ↔
      rule ∈ d.grammar.rules ∨ ∃ note, (rule, note) ∈ candidates := by
  induction candidates generalizing d with
  | nil => simp [addAll]
  | cons c candidates ih =>
    obtain ⟨r, note⟩ := c
    have hstep : d.addAll ((r, note) :: candidates) =
        (d.add r fun _ => note).addAll candidates := rfl
    have hadd : rule ∈ (d.add r fun _ => note).grammar.rules ↔
        rule ∈ d.grammar.rules ∨ rule = r := by
      rw [add_eq]
      split
      · next hr => exact ⟨.inl, fun h => h.elim id fun e => e ▸ hr⟩
      · simp
    rw [hstep, ih, hadd, or_assoc]
    simp [exists_or]

/-- Every note is that of a candidate, unless it was there before. -/
theorem mem_notes_addAll {c : Rule × α} (h : c ∈ (d.addAll candidates).notes) :
    c ∈ d.notes ∨ c ∈ candidates := by
  induction candidates generalizing d with
  | nil => exact .inl h
  | cons c' candidates ih =>
    obtain ⟨r, note⟩ := c'
    have hstep : d.addAll ((r, note) :: candidates) =
        (d.add r fun _ => note).addAll candidates := rfl
    rw [hstep] at h
    rcases ih h with h | h
    · rw [add_eq] at h
      split at h
      · exact .inl h
      · rcases List.mem_append.1 h with h | h
        · exact .inl h
        · exact .inr (by rw [List.mem_singleton.1 h]; exact List.mem_cons_self)
    · exact .inr (List.mem_cons_of_mem _ h)

/-- A rule of the draft was there from the beginning, and the record has no entry for it, or it was
added, and its entry is its note. The record may leave out notes of other rules. -/
theorem Extends.none_or_note (h : d.Extends base) (hr : rule ∈ d.grammar.rules)
    {entries : List (Rule × α)} (hsub : entries.Sublist d.notes)
    (hall : ∀ note, (rule, note) ∈ d.notes → (rule, note) ∈ entries) :
    rule ∈ base.rules ∧ (Std.TreeMap.ofList entries : RuleMap α)[rule]? = none ∨
      ∃ note, (rule, note) ∈ d.notes ∧
        (Std.TreeMap.ofList entries : RuleMap α)[rule]? = some note := by
  have hnodup := List.nodup_append.1 h.nodup
  rw [h.grammar] at hr
  -- The rules are distinct, so a rule from the beginning has no note, and any other has one only.
  rcases List.mem_append.1 hr with hbase | hadded
  · refine .inl ⟨hbase, RuleMap.getElem?_ofList_eq_none fun hmem => ?_⟩
    exact hnodup.2.2 rule hbase rule ((hsub.map _).subset hmem) rfl
  · obtain ⟨⟨r, note⟩, hnote, rfl⟩ := List.mem_map.1 hadded
    have hentries : (entries.map (·.1)).Nodup := hnodup.2.1.sublist (hsub.map _)
    exact .inr ⟨note, hnote, (RuleMap.getElem?_ofList_eq_some_iff hentries).2 (hall note hnote)⟩

/-- The rules with notes are those that the draft did not begin with. -/
theorem Extends.mem_map_notes_iff (h : d.Extends base) :
    rule ∈ d.notes.map (·.1) ↔ rule ∈ d.grammar.rules ∧ rule ∉ base.rules := by
  obtain ⟨-, -, hdisjoint⟩ := List.nodup_append.1 h.nodup
  rw [h.grammar, List.mem_append]
  constructor
  · intro hnote
    exact ⟨.inr hnote, fun hbase => hdisjoint rule hbase rule hnote rfl⟩
  · rintro ⟨hbase | hnote, hnot⟩
    · exact absurd hbase hnot
    · exact hnote

/-- Notes stay when candidates are added. -/
theorem mem_notes_addAll_of_mem {c : Rule × α} (h : c ∈ d.notes) :
    c ∈ (d.addAll candidates).notes := by
  induction candidates generalizing d with
  | nil => exact h
  | cons c' candidates ih =>
    refine ih (d := d.add c'.1 fun _ => c'.2) ?_
    rw [add_eq]
    split
    · exact h
    · exact List.mem_append_left _ h

/-- A rule that is not there yet gets the note of the first candidate with it. -/
theorem mem_notes_addAll_of_find? (hnew : rule ∉ d.grammar.rules)
    (h : candidates.find? (·.1 = rule) = some (rule, note)) :
    (rule, note) ∈ (d.addAll candidates).notes := by
  induction candidates generalizing d with
  | nil => exact absurd h (by simp)
  | cons c candidates ih =>
    obtain ⟨r, n⟩ := c
    have hstep : d.addAll ((r, n) :: candidates) = (d.add r fun _ => n).addAll candidates := rfl
    rw [hstep]
    by_cases hr : r = rule
    · subst hr
      rw [List.find?_cons_of_pos (by simp)] at h
      obtain rfl : n = note := congrArg Prod.snd (Option.some.inj h)
      refine mem_notes_addAll_of_mem ?_
      rw [add_eq, if_neg hnew]
      simp
    · rw [List.find?_cons_of_neg (by simpa using hr)] at h
      refine ih (fun hmem => hnew ?_) h
      rw [add_eq] at hmem
      split at hmem
      · exact hmem
      · simpa [Ne.symm hr] using hmem

/-- The note of a rule is that of the first candidate with the rule. -/
theorem find?_of_mem_notes (hb : base.rules.Nodup)
    (h : (rule, note) ∈ ((⟨base, []⟩ : Draft α).addAll candidates).notes) :
    candidates.find? (·.1 = rule) = some (rule, note) := by
  have hext := (extends_self (α := α) hb).addAll candidates
  obtain ⟨-, hnotes, hdisjoint⟩ := List.nodup_append.1 hext.nodup
  have hcandidate : (rule, note) ∈ candidates :=
    (mem_notes_addAll h).resolve_left List.not_mem_nil
  -- Some candidate has the rule, so there is a first one, and its note is among the notes.
  cases hfind : candidates.find? (·.1 = rule) with
  | none =>
    exact absurd (decide_eq_true rfl) (List.find?_eq_none.1 hfind (rule, note) hcandidate)
  | some first =>
    obtain rfl : first.1 = rule := by simpa using List.find?_some hfind
    have hnew : first.1 ∉ base.rules := fun hmem =>
      hdisjoint first.1 hmem first.1 (List.mem_map.2 ⟨_, h, rfl⟩) rfl
    have hfirst := mem_notes_addAll_of_find? (d := ⟨base, []⟩) hnew hfind
    -- The rules are distinct, so there is no other note.
    exact congrArg some (List.inj_on_of_nodup_map hnotes hfirst h rfl)

end Draft

end ContextFree
