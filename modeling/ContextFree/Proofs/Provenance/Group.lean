import ContextFree.Proofs.Derivation.Forest
import ContextFree.Proofs.Normal.Operand
import ContextFree.Provenance.Group
import Std.Data.TreeMap.Lemmas

/-!
# Undoing the split into normal form is right

What a record of splits has to say about the rules of a grammar in normal form is stated apart from
how the conversion finds it (`SplitMap.Explains`): an introduced variable has one rule only, and a
rule for any other variable begins the split of a rule before the conversion. In a derivation with
such rules, the nodes of introduced variables below a node carry exactly the rules of its split, so
each of them is taken into the group of that node, and the groups make up a derivation of the same
word before the conversion (`SplitMap.Explains.derives_groups`). Conversely, whatever the rules of a
tree are, if no node is kept then all of them come from splits (`Forest.mem_region_or_mem_split`).
-/

namespace ContextFree

/-- The record accounts for the rules of the grammar after the split into normal form. -/
structure SplitMap.Explains (m : SplitMap) (before after : Grammar) : Prop where
  /-- The variables introduced are those that were not there before. -/
  introduced : ∀ rule ∈ after.rules,
    (m.isIntroduced rule.lhs = true ↔ before.symbols.size ≤ rule.lhs.id)
  /-- A variable that was not there before has one rule only. -/
  unique : ∀ rule ∈ after.rules, ∀ other ∈ after.rules,
    before.symbols.size ≤ rule.lhs.id → other.lhs = rule.lhs → other = rule
  /-- A rule for any other variable begins the split of a rule before, all of which is there. -/
  begins : ∀ rule ∈ after.rules, rule.lhs.id < before.symbols.size →
    ∃ origin ∈ before.rules, ∃ op : Operand, m.groupOf? rule = some (origin, op.rules) ∧
      op.Splits before origin ∧ op.top = rule ∧ ∀ r ∈ op.rules, r ∈ after.rules

/-- What a forest below operands comes to: the nodes of introduced variables carry exactly the rules
made for the operands, and the groups derive the word from what the operands stand for. -/
def SplitMap.Regroups (m : SplitMap) (before : Grammar) (ops : List Operand) (forest : Forest)
    (word : List Symbol) : Prop :=
  forest.region m = ops.flatMap Operand.rules ∧
    ∃ d, forest.groups m true = d.map .grouped ∧
      before.Derives d (ops.flatMap Operand.frontier) word

namespace SplitMap.Explains

variable {m : SplitMap} {before after : Grammar} {d : Derivation} {form part word : List Symbol}
  {rule : Rule} {op : Operand} {ops : List Operand} {index : Nat} {children siblings : Forest}

/-- A variable that was there before was not introduced. -/
theorem isIntroduced_eq_false (hm : m.Explains before after)
    (hmem : rule ∈ after.rules) (hlt : rule.lhs.id < before.symbols.size) :
    m.isIntroduced rule.lhs = false := by
  cases hi : m.isIntroduced rule.lhs with
  | false => rfl
  | true =>
    have := (hm.introduced rule hmem).1 hi
    omega

/-- The rules for the operands that an operand is replaced by are some of its own rules. -/
theorem forall_mem_rules_parts (hall : op.rules = op.top :: op.parts.flatMap Operand.rules)
    (hrules : ∀ r ∈ op.rules, r ∈ after.rules) :
    ∀ o ∈ op.parts, ∀ r ∈ o.rules, r ∈ after.rules := by
  intro o ho r hr
  refine hrules r ?_
  rw [hall]
  exact List.mem_cons_of_mem _ (List.mem_flatMap.2 ⟨o, ho, hr⟩)

/-- A node of a variable that was there before begins the split of some rule. With the nodes of
introduced variables below it, it becomes this rule. -/
theorem regroups_of_begins (hm : m.Explains before after) (hmem : rule ∈ after.rules)
    (hlt : rule.lhs.id < before.symbols.size) (hv : before.isTerminal rule.lhs = false)
    (hbelow : ∀ parts : List Operand, rule.rhs = parts.map Operand.symbol →
      (∀ o ∈ parts, o.Stands before) → (∀ o ∈ parts, ∀ r ∈ o.rules, r ∈ after.rules) →
        m.Regroups before parts children part)
    (hbeside : m.Regroups before ops siblings word) :
    m.Regroups before (.plain rule.lhs :: ops) (.cons index rule children siblings)
      (part ++ word) := by
  obtain ⟨origin, horigin, T, hgroup, hsplits, htop, hT⟩ := hm.begins rule hmem hlt
  obtain ⟨hlhs, hall, hrhs, hparts⟩ := hsplits.eq_top
  obtain ⟨hregion₁, d₁, hgroups₁, hd₁⟩ :=
    hbelow T.parts (by rw [← htop]; rfl) hparts (forall_mem_rules_parts hall hT)
  obtain ⟨hregion₂, d₂, hgroups₂, hd₂⟩ := hbeside
  have horigin? : Forest.origin? m rule children = some origin := by
    rw [Forest.origin?, hgroup, hregion₁]
    dsimp only
    rw [if_pos (by rw [hall, htop])]
  have hsame : origin.lhs = rule.lhs := by
    rw [← hlhs, ← htop]
    rfl
  rw [SplitMap.Regroups, Forest.region, Forest.groups, hm.isIntroduced_eq_false hmem hlt, horigin?]
  refine ⟨hregion₂, origin :: (d₁ ++ d₂), by simp [hgroups₁, hgroups₂], ?_⟩
  rw [← hrhs] at hd₁
  rw [← hsame] at hv
  rw [List.flatMap_cons, Operand.frontier, List.singleton_append, ← hsame]
  exact .ofRule horigin hv hd₁ hd₂

/-- A node of a fresh variable carries the only rule for it, and belongs to the group above. -/
theorem regroups_of_fresh (hm : m.Explains before after)
    (hf : before.symbols.size ≤ op.symbol.id) (htop : op.top ∈ after.rules)
    (hall : op.rules = op.top :: op.parts.flatMap Operand.rules)
    (hfront : op.frontier = op.parts.flatMap Operand.frontier)
    (hbelow : m.Regroups before op.parts children part)
    (hbeside : m.Regroups before ops siblings word) :
    m.Regroups before (op :: ops) (.cons index op.top children siblings) (part ++ word) := by
  obtain ⟨hregion₁, d₁, hgroups₁, hd₁⟩ := hbelow
  obtain ⟨hregion₂, d₂, hgroups₂, hd₂⟩ := hbeside
  have hyes : m.isIntroduced op.top.lhs = true := (hm.introduced op.top htop).2 hf
  rw [SplitMap.Regroups, Forest.region, Forest.groups, hyes, hregion₁, hregion₂, hgroups₁, hgroups₂]
  refine ⟨?_, d₁ ++ d₂, by simp, ?_⟩
  · rw [if_pos rfl, List.flatMap_cons, hall]
  · rw [List.flatMap_cons, hfront]
    exact hd₁.append hd₂

/-- A derivation from the variables of operands, with rules that the record accounts for, is
regrouped. -/
theorem regroups_ofRules (hm : m.Explains before after)
    (ht : after.isTerminal = before.isTerminal)
    (hb : ∀ s, before.isTerminal s = true → s.id < before.symbols.size)
    (h : after.Derives d form word) (index : Nat) (ops : List Operand)
    (hform : form = ops.map Operand.symbol) (hops : ∀ op ∈ ops, op.Stands before)
    (hrules : ∀ op ∈ ops, ∀ r ∈ op.rules, r ∈ after.rules) :
    m.Regroups before ops (Forest.ofRules before.isTerminal index d) word := by
  induction h generalizing index ops with
  | nil =>
    obtain rfl := List.map_eq_nil_iff.1 hform.symm
    exact ⟨rfl, [], rfl, .nil⟩
  | @ofTerminal d a rest word ha _ ih =>
    obtain ⟨op, ops, rfl, rfl, rfl⟩ := List.map_eq_cons_iff.1 hform.symm
    obtain ⟨hop, hops⟩ := List.forall_mem_cons.1 hops
    rw [ht] at ha
    -- Operands within a split have variables, so the operand here is the terminal itself.
    have hplain : op = .plain op.symbol := by
      rcases hop with hw | ⟨a, rfl, -⟩
      · rw [hw.isVariable hb] at ha
        exact absurd ha Bool.false_ne_true
      · rfl
    obtain ⟨hregion, d', hgroups, hd'⟩ := ih index ops rfl hops (List.forall_mem_cons.1 hrules).2
    rw [hplain] at ha ⊢
    exact ⟨hregion, d', hgroups, .ofTerminal ha hd'⟩
  | @ofRule rule d e rest part word hmem hv head _ ihHead ihTail =>
    obtain ⟨op, ops, rfl, hsym, rfl⟩ := List.map_eq_cons_iff.1 hform.symm
    obtain ⟨hop, hops⟩ := List.forall_mem_cons.1 hops
    obtain ⟨hrule, hrules⟩ := List.forall_mem_cons.1 hrules
    rw [ht] at hv
    have hbeside := ihTail (index + 1 + d.length) ops rfl hops hrules
    have hforest := head.ofRules_cons index e
    rw [ht] at hforest
    rw [hforest]
    have hw : op.Within before := by
      rcases hop with hw | ⟨a, rfl, ha⟩
      · exact hw
      · rw [← hsym] at hv
        exact absurd (hv.symm.trans ha) Bool.false_ne_true
    rcases hw.plain_or_fresh with ⟨s, rfl, hs, -⟩ | ⟨hf, hall, hfront, hparts⟩
    · obtain rfl : s = rule.lhs := hsym
      exact hm.regroups_of_begins hmem hs hv (ihHead (index + 1)) hbeside
    · have htop : op.top ∈ after.rules := hrule _ (by rw [hall]; exact List.mem_cons_self)
      obtain rfl : rule = op.top := hm.unique op.top htop rule hmem hf hsym.symm
      have hbelow := ihHead (index + 1) op.parts rfl hparts (forall_mem_rules_parts hall hrule)
      exact hm.regroups_of_fresh hf htop hall hfront hbelow hbeside

/-- Undoing the split turns a derivation from a variable that was there before into one of the same
word before the split, and leaves no rule of unknown provenance. -/
theorem derives_groups (hm : m.Explains before after) (ht : after.isTerminal = before.isTerminal)
    (hb : ∀ s, before.isTerminal s = true → s.id < before.symbols.size) {s : Symbol}
    (hs : s.id < before.symbols.size) (hv : before.isTerminal s = false)
    (h : after.Derives d [s] word) :
    ∃ d', (Forest.ofRules before.isTerminal 0 d).groups m false = d'.map .grouped ∧
      before.Derives d' [s] word := by
  obtain ⟨-, d', hgroups, hd'⟩ := hm.regroups_ofRules ht hb h 0 [.plain s] rfl
    (fun op ho => .inl (List.mem_singleton.1 ho ▸ .plain hs hv))
    (fun op ho r hr => by rw [List.mem_singleton.1 ho] at hr; exact absurd hr List.not_mem_nil)
  refine ⟨d', ?_, by simpa [Operand.frontier] using hd'⟩
  -- The root is no introduced variable, so there it makes no difference what stands above.
  obtain ⟨rule, hmem, rfl, e, rfl, he⟩ := (Grammar.derives_variable_iff (ht ▸ hv)).1 h
  have hforest := he.ofRules_cons 0 []
  rw [List.append_nil, ht] at hforest
  rw [← hgroups, hforest, Forest.groups, Forest.groups, hm.isIntroduced_eq_false hmem hs]
  rfl

end SplitMap.Explains

namespace SplitMap

variable {m : SplitMap} {origin rule : Rule} {split : Derivation}

/-- The rule found is recorded with a split that begins with the given rule. -/
theorem get?_of_groupOf? (h : m.groupOf? rule = some (origin, split)) :
    m.get? origin = some split ∧ split.head? = some rule := by
  rw [groupOf?] at h
  have hin := List.mem_of_find?_eq_some h
  rw [List.mem_reverse, Std.TreeMap.mem_toList_iff_getElem?_eq_some] at hin
  exact ⟨hin, by simpa using List.find?_some h⟩

/-- The rule whose split begins with a given one is found if there is no other such rule. -/
theorem groupOf?_eq_some (h : m.get? origin = some split) (hhead : split.head? = some rule)
    (hunique : ∀ other split', m.get? other = some split' → split'.head? = some rule →
      other = origin) : m.groupOf? rule = some (origin, split) := by
  have hmem : (origin, split) ∈ m.splits.toList.reverse := by
    rw [List.mem_reverse, Std.TreeMap.mem_toList_iff_getElem?_eq_some]
    exact h
  cases hfind : m.groupOf? rule with
  | none =>
    rw [groupOf?] at hfind
    have := List.find?_eq_none.1 hfind _ hmem
    simp [hhead] at this
  | some entry =>
    obtain ⟨other, split'⟩ := entry
    -- Whatever split was found begins with the rule, so it is the one of the origin.
    obtain ⟨hget, hhead'⟩ := get?_of_groupOf? hfind
    obtain rfl := hunique other split' hget hhead'
    rw [h] at hget
    rw [Option.some.inj hget]

end SplitMap

/-! ## Nothing kept -/

namespace Forest

variable {m : SplitMap} {rule : Rule}

/-- A node that stands for a rule carries, with the introduced ones below it, the split of that
rule. -/
theorem get?_of_origin? {children : Forest} {origin : Rule}
    (h : origin? m rule children = some origin) :
    m.get? origin = some (rule :: children.region m) := by
  unfold origin? at h
  split at h
  · next origin' split hgroup =>
    split at h
    · next heq =>
      obtain rfl := Option.some.inj h
      rw [heq]
      exact (SplitMap.get?_of_groupOf? hgroup).1
    · exact absurd h (by simp)
  · exact absurd h (by simp)

/-- A node that nothing above has taken begins the split of some rule, unless it is kept. -/
theorem exists_origin?_of_kept_eq_nil {index : Nat} {children siblings : Forest}
    (h : ((cons index rule children siblings).groups m false).filterMap Group.kept? = []) :
    ∃ origin, origin? m rule children = some origin := by
  cases horigin : origin? m rule children with
  | some origin => exact ⟨origin, rfl⟩
  | none => simp [groups, horigin, Group.kept?] at h

/-- If no node is kept, each belongs to the split of some rule, or to that of the group above, if
there is one. -/
theorem mem_region_or_mem_split (forest : Forest) (absorbed : Bool)
    (h : (forest.groups m absorbed).filterMap Group.kept? = []) :
    ∀ r ∈ forest.rules, (absorbed = true ∧ r ∈ forest.region m) ∨
      ∃ origin split, m.get? origin = some split ∧ r ∈ split := by
  induction forest generalizing absorbed with
  | nil => simp [rules]
  | cons index rule children siblings ihChildren ihSiblings =>
    rw [groups, List.filterMap_append, List.append_eq_nil_iff] at h
    obtain ⟨hhere, hbeside⟩ := h
    intro r hr
    rw [rules, List.mem_cons, List.mem_append] at hr
    rw [region, List.mem_append]
    rcases or_assoc.2 hr with hr | hr
    · split at hhere
      · next htaken =>
        -- The group above takes the node, and with it the introduced ones below.
        obtain ⟨habsorbed, hintro⟩ := Bool.and_eq_true_iff.1 htaken
        rw [if_pos hintro]
        rcases hr with rfl | hr
        · exact .inl ⟨habsorbed, .inl List.mem_cons_self⟩
        · rcases ihChildren true hhere r hr with ⟨-, hregion⟩ | hsplit
          · exact .inl ⟨habsorbed, .inl (List.mem_cons_of_mem _ hregion)⟩
          · exact .inr hsplit
      · refine .inr ?_
        cases horigin : origin? m rule children with
        | none => simp [horigin, Group.kept?] at hhere
        | some origin =>
          have hget := get?_of_origin? horigin
          simp only [horigin, List.filterMap_cons, Group.kept?] at hhere
          rcases hr with rfl | hr
          · exact ⟨origin, _, hget, List.mem_cons_self⟩
          · rcases ihChildren true hhere r hr with ⟨-, hregion⟩ | hsplit
            · exact ⟨origin, _, hget, List.mem_cons_of_mem _ hregion⟩
            · exact hsplit
    · rcases ihSiblings absorbed hbeside r hr with ⟨habsorbed, hregion⟩ | hsplit
      · exact .inl ⟨habsorbed, .inr hregion⟩
      · exact .inr hsplit

end Forest

end ContextFree
