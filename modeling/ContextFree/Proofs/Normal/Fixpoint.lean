import ContextFree.Proofs.Normal.Binarize
import ContextFree.Proofs.Normal.NullingFree
import ContextFree.Proofs.Normal.UnitFree
import ContextFree.Proofs.Normal.Useful

/-!
# Stages with nothing to do

A stage that finds nothing to change gives the grammar back as it is and records nothing about its
rules. If all symbols are productive and all variables with rules are reachable, no rule is useless
(`Grammar.productivePart_eq_self`, `Grammar.reachablePart_eq_self`). Without nulling rules no symbol
has a witness, so no variant is made (`Grammar.eliminateNulling_eq_self`). Without unit rules no
variable leads to another one, so no shortcut is made (`Grammar.eliminateUnits_eq_self`). A grammar
in normal form is converted rule by rule into itself, and the record splits each of its rules into
that rule alone (`Grammar.binarize_eq_self`). All of this takes rules that are distinct, since a
stage builds its grammar by adding each rule once (`Grammar.addRules_eq_append`).
-/

namespace ContextFree

namespace Grammar

variable {g : Grammar} {rules : List Rule} {s : Symbol}

/-- Rules that are all different, and none of which is there yet, are put at the end in order. -/
theorem addRules_eq_append (h : (g.rules ++ rules).Nodup) :
    g.addRules rules = { g with rules := g.rules ++ rules } := by
  induction rules generalizing g with
  | nil =>
    rw [List.append_nil]
    rfl
  | cons rule rules ih =>
    have hnew : rule ∉ g.rules := fun hmem =>
      (List.nodup_append.1 h).2.2 rule hmem rule (by simp) rfl
    have hadd : g.addRule rule = { g with rules := g.rules ++ [rule] } := by
      rw [addRule_eq, if_neg hnew]
    rw [List.append_cons] at h ⊢
    calc g.addRules (rule :: rules)
        = (g.addRule rule).addRules rules := rfl
      _ = ({ g with rules := g.rules ++ [rule] } : Grammar).addRules rules := by rw [hadd]
      _ = { g with rules := g.rules ++ [rule] ++ rules } := ih h

/-- Adding all rules of a grammar to the grammar without them gives it back. -/
theorem addRules_withoutRules (h : g.rules.Nodup) : g.withoutRules.addRules g.rules = g :=
  addRules_eq_append (g := g.withoutRules) h

/-! ## Useless rules -/

/-- A grammar all of whose rules pass a test keeps them all. -/
theorem retain_eq_self {keep : Rule → Bool} (h : ∀ rule ∈ g.rules, keep rule = true) :
    g.retain keep = g := by
  unfold retain
  rw [List.filter_eq_self.2 h]

/-- A grammar in which every symbol on a right-hand side derives some word has no rules with a
symbol that derives none. -/
theorem productivePart_eq_self (hp : ∀ rule ∈ g.rules, ∀ s ∈ rule.rhs, s ∈ g.productive) :
    g.productivePart = g := by
  refine retain_eq_self fun rule hr => ?_
  have hlhs : rule.lhs ∈ g.productive := lhs_mem_close_markNulling hr (hp rule hr)
  simpa using ⟨hlhs, hp rule hr⟩

/-- A grammar with rules for reachable variables alone keeps them all. -/
theorem reachablePart_eq_self {start : Symbol}
    (hr : ∀ rule ∈ g.rules, rule.lhs ∈ g.reachableFrom start) : g.reachablePart start = g :=
  retain_eq_self fun rule hm => SymbolSet.contains_iff.2 (hr rule hm)

/-! ## Nulling rules -/

/-- Witnesses begin with a nulling rule, so there are none without one. -/
theorem witnesses_eq_nil (hr : ∀ rule ∈ g.rules, rule.rhs ≠ []) : Witnesses.ofGrammar g = [] := by
  have hgrounded := Witnesses.grounded_ofGrammar g
  generalize Witnesses.ofGrammar g = w at hgrounded
  induction w with
  | nil => rfl
  | cons rule earlier ih =>
    -- No witness comes before the first one, so that one would have an empty right-hand side.
    obtain ⟨hm, -, hcovers, hearlier⟩ := hgrounded
    obtain rfl := ih hearlier
    obtain ⟨t, ht⟩ := List.exists_mem_of_ne_nil _ (hr rule hm)
    exact absurd (hcovers t ht) Bool.false_ne_true

/-- A rule without symbols that have witnesses has no variants. -/
theorem variants_nil (rule : Rule) : variants [] (Witnesses.symbols []) rule = [] := by
  have hplaces : placesIn (Witnesses.symbols []) rule = [] := by
    unfold placesIn
    rw [List.filter_eq_nil_iff.2 fun _ _ h => ?_, List.map_nil]
    exact SymbolSet.not_mem_empty (SymbolSet.contains_iff.1 h)
  unfold variants
  rw [hplaces]
  rfl

/-- A grammar without nulling rules, in which every symbol on a right-hand side derives some word,
comes out of the elimination of nulling rules as it is. -/
theorem eliminateNulling_eq_self (hn : g.rules.Nodup) (hr : ∀ rule ∈ g.rules, rule.rhs ≠ [])
    (hp : ∀ rule ∈ g.rules, ∀ s ∈ rule.rhs, s ∈ g.productive) :
    g.eliminateNulling.grammar = g ∧ g.eliminateNulling.record = ∅ := by
  have hbase : g.nonNulling = g := by
    unfold nonNulling
    rw [List.filter_eq_self.2 fun rule hm => by simpa [Rule.isNulling] using hr rule hm]
    exact addRules_withoutRules hn
  have hdraft : g.nullingDraft (.ofGrammar g) = ⟨g, []⟩ := by
    rw [nullingDraft_eq, witnesses_eq_nil hr, List.flatMap_eq_nil_iff.2 fun rule _ =>
      variants_nil rule, hbase]
    rfl
  have hretain : (g.retain fun rule => rule.rhs.all g.productive.contains) = g :=
    retain_eq_self fun rule hm =>
      List.all_eq_true.2 fun s hs => SymbolSet.contains_iff.2 (hp rule hm s hs)
  unfold eliminateNulling
  dsimp only
  rw [hdraft]
  exact ⟨hretain, rfl⟩

/-! ## Unit rules -/

/-- Without unit rules, no variable leads to another one. -/
theorem unitChains_eq_singleton (hr : ∀ rule ∈ g.rules, g.isUnitRule rule = false) (s : Symbol) :
    g.unitChains s = [(s, [])] := by
  have hreaches := reaches_unitChains g s
  obtain ⟨rest, hrest⟩ := hreaches.first
  cases rest with
  | nil => exact hrest
  | cons entry rest =>
    obtain ⟨rule, hm, htarget⟩ := hreaches.targets entry.1 (by simp [hrest])
    have hunit := hr rule hm
    rw [isUnitRule, htarget] at hunit
    exact absurd hunit Bool.noConfusion

/-- A grammar without unit rules comes out of the elimination of unit rules as it is. -/
theorem eliminateUnits_eq_self (hn : g.rules.Nodup)
    (hr : ∀ rule ∈ g.rules, g.isUnitRule rule = false) :
    g.eliminateUnits.grammar = g ∧ g.eliminateUnits.record = ∅ := by
  have hbase : g.nonUnit = g := by
    unfold nonUnit
    rw [List.filter_eq_self.2 fun rule hm => by simp [hr rule hm]]
    exact addRules_withoutRules hn
  have hshortcuts : ∀ s, g.shortcuts s = [] := by
    intro s
    unfold shortcuts
    rw [unitChains_eq_singleton hr]
    rfl
  have hdraft : g.unitDraft = ⟨g, []⟩ := by
    rw [unitDraft_eq, List.flatMap_eq_nil_iff.2 fun s _ => hshortcuts s, hbase]
    rfl
  unfold eliminateUnits
  dsimp only
  rw [hdraft]
  exact ⟨rfl, rfl⟩

/-- A grammar in normal form has no unit rules. -/
theorem isUnitRule_of_isNormal (hn : g.isNormal = true) :
    ∀ rule ∈ g.rules, g.isUnitRule rule = false := by
  rintro ⟨lhs, rhs⟩ hm
  unfold isUnitRule unitTarget? isVariable
  rcases isNormalRule_iff.1 (List.all_eq_true.1 hn _ hm) with ⟨a, rfl, ha⟩ | ⟨b, c, rfl, -⟩
  · simp [ha]
  · rfl

end Grammar

/-! ## The conversion -/

/-- Converting new rules in normal form adds them in order, introduces no variable and records each
of them as split into itself. -/
theorem Binarizer.foldl_convert_of_isNormal {b : Binarizer} {rules : List Rule}
    (hn : ∀ rule ∈ rules, b.result.isNormalRule rule = true)
    (hnodup : (b.result.rules ++ rules).Nodup) :
    (rules.foldl convert b).result = { b.result with rules := b.result.rules ++ rules } ∧
      (rules.foldl convert b).split.introduced = b.split.introduced ∧
      ∀ r, (rules.foldl convert b).split.get? r =
        if r ∈ rules then some [r] else b.split.get? r := by
  induction rules generalizing b with
  | nil =>
    refine ⟨?_, rfl, fun r => (if_neg List.not_mem_nil).symm⟩
    rw [List.append_nil]
    rfl
  | cons rule rules ih =>
    rw [List.append_cons] at hnodup
    have hconvert : b.convert rule = b.record rule [rule] := if_pos (hn rule (by simp))
    have hresult : (b.convert rule).result =
        { b.result with rules := b.result.rules ++ [rule] } := by
      rw [hconvert]
      exact Grammar.addRules_eq_append (hnodup.sublist (List.sublist_append_left _ _))
    obtain ⟨hresult', hintroduced, hget⟩ := ih (b := b.convert rule)
      (fun r hr => by rw [hresult]; exact hn r (by simp [hr]))
      (by rw [hresult]; exact hnodup)
    rw [List.foldl_cons]
    refine ⟨?_, ?_, fun r => ?_⟩
    · rw [hresult', hresult, List.append_cons _ rule rules]
    · rw [hintroduced, hconvert]
      rfl
    · rw [hget, hconvert, get?_record]
      by_cases hr : r = rule
      · simp [hr]
      · simp [hr]

namespace Grammar

variable {g : Grammar}

/-- A grammar in normal form comes out of the conversion as it is, no variable is introduced, and
what is recorded is that each of its rules is split into itself. -/
theorem binarize_eq_self (hnodup : g.rules.Nodup) (hn : g.isNormal = true) :
    g.binarize.grammar = g ∧ g.binarize.record.introduced = .empty ∧
      ∀ rule, g.binarize.record.get? rule = if rule ∈ g.rules then some [rule] else none := by
  have hrules : ∀ rule ∈ g.rules, g.withoutRules.isNormalRule rule = true :=
    List.all_eq_true.1 hn
  obtain ⟨hresult, hintroduced, hget⟩ :=
    Binarizer.foldl_convert_of_isNormal (b := { result := g.withoutRules }) hrules hnodup
  refine ⟨hresult, hintroduced, fun rule => (hget rule).trans ?_⟩
  have hnone : SplitMap.empty.get? rule = none := by simp [SplitMap.get?, SplitMap.empty]
  rw [hnone]

/-- The record of converting a grammar in normal form has one entry for each of its rules. -/
theorem size_binarize (hnodup : g.rules.Nodup) (hn : g.isNormal = true) :
    g.binarize.record.size = g.size := by
  have hperm : g.binarize.record.splits.keys.Perm g.rules := by
    refine (List.perm_ext_iff_of_nodup Std.TreeMap.nodup_keys hnodup).2 fun rule => ?_
    rw [Std.TreeMap.mem_keys, Std.TreeMap.mem_iff_isSome_getElem?]
    change (g.binarize.record.get? rule).isSome = true ↔ rule ∈ g.rules
    rw [(binarize_eq_self hnodup hn).2.2]
    split <;> simpa
  calc g.binarize.record.size
      = g.binarize.record.splits.keys.length := Std.TreeMap.length_keys.symm
    _ = g.size := hperm.length_eq

/-- The record of converting a grammar in normal form is the identity. -/
theorem isIdentity_binarize (hnodup : g.rules.Nodup) (hn : g.isNormal = true) :
    g.binarize.record.isIdentity = true := by
  refine List.all_eq_true.2 fun ⟨rule, split⟩ hentry => ?_
  have hget : g.binarize.record.get? rule = some split :=
    Std.TreeMap.mem_toList_iff_getElem?_eq_some.1 hentry
  rw [(binarize_eq_self hnodup hn).2.2] at hget
  split at hget
  · rw [← Option.some.inj hget]
    exact beq_self_eq_true _
  · exact absurd hget (by simp)

end Grammar

end ContextFree
