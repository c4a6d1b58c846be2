import ContextFree.Proofs.Normal.UnitFree

/-!
# The record of the elimination of unit rules

The search for unit chains goes breadth first. Its list of reached variables is its queue, so the
chains in it grow by at most one rule from the variable that is followed to the last one
(`Grammar.Layered`), and the target of a rule is never further away than one rule from where the
rule begins. No chain of unit rules is therefore shorter than the one the search keeps
(`Grammar.exists_length_le_of_unitChain`). The shortcuts of a variable are added in the order of the
search, so the chain that is recorded for a rule is a shortest one of all that explain it
(`Grammar.length_le_of_getElem?_record`). The chains are those that the last rules lead back along:
going back from a variable by the rule that it was reached by ends where the search began
(`Grammar.walkBack_unitChains`).
-/

namespace ContextFree

namespace UnitChains

/-- The rule by which a variable was reached, which is the last one of its chain. The variable that
the search began with has none. -/
def via? (reached : UnitChains) (t : Symbol) : Option Rule :=
  (reached.find? (·.1 = t)).bind fun entry => entry.2.getLast?

/-- Goes back from a variable by the rules by which variables were reached, over at most `fuel`
rules. The result is the variable where that ends, and the rules gone back over, in the order in
which they lead forward. -/
def walkBack (reached : UnitChains) : (fuel : Nat) → Symbol → Symbol × Derivation
  | 0, t => (t, [])
  | fuel + 1, t =>
    match reached.via? t with
    | none => (t, [])
    | some rule =>
      let (s, chain) := reached.walkBack fuel rule.lhs
      (s, chain ++ [rule])

end UnitChains

namespace Grammar

variable {g : Grammar} {s t : Symbol} {rule : Rule} {chain steps : Derivation}
  {reached : UnitChains}

/-! ## Layers -/

/-- What makes the search go breadth first, when the first `k` variables were followed. -/
structure Layered (g : Grammar) (reached : UnitChains) (k : Nat) : Prop where
  /-- Chains do not get shorter along the queue. -/
  sorted : reached.Pairwise fun first second => first.2.length ≤ second.2.length
  /-- No chain is longer by more than one rule than that of the variable to be followed next. -/
  spread : ∀ entry, reached[k]? = some entry →
    ∀ other ∈ reached, other.2.length ≤ entry.2.length + 1
  /-- A rule for a variable that was followed leads to one with a chain that is at most one rule
  longer. -/
  near : ∀ i < k, ∀ entry, reached[i]? = some entry → ∀ rule ∈ g.rules, rule.lhs = entry.1 →
    ∀ t, g.unitTarget? rule = some t →
      ∃ chain, (t, chain) ∈ reached ∧ chain.length ≤ entry.2.length + 1
  /-- Every chain but the empty one continues that of the variable its last rule is for. -/
  back : ∀ entry ∈ reached, entry.2 ≠ [] →
    ∃ rule chain, entry.2 = chain ++ [rule] ∧ (rule.lhs, chain) ∈ reached

/-- Going through rules adds variables behind those reached, each by the chain that one of the rules
continues. -/
theorem exists_foldl_noteTarget_eq (chain : Derivation) (reached : UnitChains)
    (rules : List Rule) :
    ∃ extra, rules.foldl (g.noteTarget chain) reached = reached ++ extra ∧
      ∀ entry ∈ extra, ∃ rule ∈ rules, entry.2 = chain ++ [rule] := by
  induction rules generalizing reached with
  | nil => exact ⟨[], (List.append_nil _).symm, by simp⟩
  | cons rule rules ih =>
    obtain ⟨extra, heq, hextra⟩ := ih (g.noteTarget chain reached rule)
    have hlater : ∀ entry ∈ extra, ∃ r ∈ rule :: rules, entry.2 = chain ++ [r] := by
      intro entry hm
      obtain ⟨r, hr, hentry⟩ := hextra entry hm
      exact ⟨r, List.mem_cons_of_mem _ hr, hentry⟩
    rw [List.foldl_cons, heq]
    rcases noteTarget_eq chain reached rule with ⟨hsame, -⟩ | ⟨t, -, -, hadd⟩
    · exact ⟨extra, by rw [hsame], hlater⟩
    · refine ⟨(t, chain ++ [rule]) :: extra, ?_, List.forall_mem_cons.2 ⟨?_, hlater⟩⟩
      · rw [hadd, List.append_assoc]
        rfl
      · exact ⟨rule, List.mem_cons_self, rfl⟩

/-- Before the first variable is followed there is one layer with one variable. -/
theorem layered_singleton (g : Grammar) (s : Symbol) : g.Layered [(s, [])] 0 where
  sorted := List.pairwise_singleton _ _
  spread entry _ other ho := by
    rw [List.mem_singleton.1 ho]
    exact Nat.zero_le _
  near i hi := absurd hi (Nat.not_lt_zero i)
  back entry hm hne := by
    rw [List.mem_singleton.1 hm] at hne
    exact absurd rfl hne

/-- The variables that following a variable adds make up the next layer, which none there was lies
beyond. -/
theorem Layered.append {k : Nat} {extra : UnitChains} (h : g.Layered reached k)
    (hentry : reached[k]? = some (t, chain))
    (hextra : ∀ entry ∈ extra, ∃ rule ∈ g.rulesFor t, entry.2 = chain ++ [rule])
    (hf : g.Follows (reached ++ extra) (k + 1)) : g.Layered (reached ++ extra) (k + 1) := by
  have hlt : k < reached.length := (List.getElem?_eq_some_iff.1 hentry).1
  have hplace : (reached ++ extra)[k]? = some (t, chain) := by
    rw [List.getElem?_append_left hlt, hentry]
  have hold : ∀ other ∈ reached, other.2.length ≤ chain.length + 1 := h.spread (t, chain) hentry
  have hnew : ∀ other ∈ extra, other.2.length = chain.length + 1 := by
    intro other ho
    obtain ⟨rule, -, heq⟩ := hextra other ho
    simp [heq]
  have hall : ∀ other ∈ reached ++ extra, other.2.length ≤ chain.length + 1 := by
    intro other ho
    rcases List.mem_append.1 ho with ho | ho
    · exact hold other ho
    · exact Nat.le_of_eq (hnew other ho)
  have hsorted : (reached ++ extra).Pairwise fun first second =>
      first.2.length ≤ second.2.length := by
    refine List.pairwise_append.2 ⟨h.sorted, ?_, fun first ha second hb => ?_⟩
    · refine List.pairwise_of_forall_mem_list fun first ha second hb => Nat.le_of_eq ?_
      rw [hnew first ha, hnew second hb]
    · rw [hnew second hb]
      exact hold first ha
  refine ⟨hsorted, fun entry hget other ho => ?_, fun i hi entry hget rule hr hlhs u hu => ?_,
    fun entry hm hne => ?_⟩
  · -- The variable to be followed next is not nearer than the one that was followed.
    obtain ⟨hk, hk'⟩ := List.getElem?_eq_some_iff.1 hplace
    obtain ⟨hn, hn'⟩ := List.getElem?_eq_some_iff.1 hget
    have hle := List.pairwise_iff_getElem.1 hsorted k (k + 1) hk hn (Nat.lt_succ_self k)
    rw [hk', hn'] at hle
    calc other.2.length ≤ chain.length + 1 := hall other ho
      _ ≤ entry.2.length + 1 := Nat.succ_le_succ hle
  · rcases Nat.lt_succ_iff_lt_or_eq.1 hi with hi | rfl
    · rw [List.getElem?_append_left (by omega)] at hget
      obtain ⟨c, hc, hle⟩ := h.near i hi entry hget rule hr hlhs u hu
      exact ⟨c, List.mem_append_left _ hc, hle⟩
    · obtain ⟨⟨_, c⟩, hc, rfl⟩ := List.mem_map.1 (hf i hi entry hget rule hr hlhs u hu)
      obtain rfl := Option.some.inj (hplace.symm.trans hget)
      exact ⟨c, hc, hall _ hc⟩
  · rcases List.mem_append.1 hm with hm | hm
    · obtain ⟨rule, c, heq, hc⟩ := h.back entry hm hne
      exact ⟨rule, c, heq, List.mem_append_left _ hc⟩
    · obtain ⟨rule, hr, heq⟩ := hextra entry hm
      obtain ⟨-, rfl⟩ : rule ∈ g.rules ∧ rule.lhs = t := by simpa [rulesFor] using hr
      exact ⟨rule, chain, heq, List.mem_append_left _ (List.mem_of_getElem? hentry)⟩

/-- Following one more variable keeps the layers, if its targets are reached then. -/
theorem Layered.followAt {k : Nat} (h : g.Layered reached k)
    (hf : g.Follows (g.followAt reached k) (k + 1)) :
    g.Layered (g.followAt reached k) (k + 1) := by
  cases hentry : reached[k]? with
  | none =>
    -- All variables were followed, so there is none to be followed next, either.
    have hsame : g.followAt reached k = reached := by rw [Grammar.followAt, hentry]
    have hlen : reached.length ≤ k := List.getElem?_eq_none_iff.1 hentry
    rw [hsame]
    refine ⟨h.sorted, fun entry hget => ?_, fun i _ entry hget => ?_, h.back⟩
    · have hlt := (List.getElem?_eq_some_iff.1 hget).1
      omega
    · have hlt := (List.getElem?_eq_some_iff.1 hget).1
      exact h.near i (by omega) entry hget
  | some entry =>
    obtain ⟨t, chain⟩ := entry
    obtain ⟨extra, hadd, hextra⟩ := exists_foldl_noteTarget_eq (g := g) chain reached (g.rulesFor t)
    have hmore : g.followAt reached k = reached ++ extra := by
      rw [Grammar.followAt, hentry]
      exact hadd
    rw [hmore] at hf ⊢
    exact h.append hentry hextra hf

/-- The search goes breadth first. -/
theorem layered_unitChains (g : Grammar) (s : Symbol) :
    g.Layered (g.unitChains s) (g.rules.length + 1) := by
  have hrounds : ∀ k, g.Layered ((List.range k).foldl g.followAt [(s, [])]) k := by
    intro k
    induction k with
    | zero => exact layered_singleton g s
    | succ k ih =>
      have hfollows := (reaches_foldl_followAt g s (k + 1)).2
      rw [List.range_succ, List.foldl_append] at hfollows ⊢
      exact ih.followAt hfollows
  exact hrounds _

/-- No variable is reached by two chains. -/
theorem chain_eq_of_mem_unitChains {chain' : Derivation} (h : (t, chain) ∈ g.unitChains s)
    (h' : (t, chain') ∈ g.unitChains s) : chain = chain' := by
  have heq := List.inj_on_of_nodup_map (reaches_unitChains g s).nodup h h' rfl
  exact congrArg Prod.snd heq

/-- What a chain of unit rules leads to is reached by a chain that is not longer. -/
theorem exists_length_le_of_unitChain (h : g.UnitChain s chain t) :
    ∃ shortest, (t, shortest) ∈ g.unitChains s ∧ shortest.length ≤ chain.length := by
  have hreaches := reaches_unitChains g s
  induction h with
  | nil =>
    obtain ⟨rest, hrest⟩ := hreaches.first
    exact ⟨[], by rw [hrest]; exact List.mem_cons_self, Nat.le_refl _⟩
  | @snoc chain rule t _ hr htarget ih =>
    obtain ⟨before, hbefore, hle⟩ := ih
    obtain ⟨i, hi, hget⟩ := List.getElem_of_mem hbefore
    have hplace : (g.unitChains s)[i]? = some (rule.lhs, before) := by
      rw [List.getElem?_eq_getElem hi, hget]
    have hround : i < g.rules.length + 1 := Nat.lt_of_lt_of_le hi hreaches.length_le
    obtain ⟨shortest, hmem, hnear⟩ :=
      (layered_unitChains g s).near i hround _ hplace rule hr rfl t htarget
    refine ⟨shortest, hmem, ?_⟩
    calc shortest.length ≤ before.length + 1 := hnear
      _ ≤ chain.length + 1 := Nat.succ_le_succ hle
      _ = (chain ++ [rule]).length := by simp

/-! ## Going back -/

/-- A chain without rules leads nowhere else. -/
theorem UnitChain.eq_of_nil (h : g.UnitChain s [] t) : t = s := by
  generalize hnil : ([] : Derivation) = chain at h
  cases h with
  | nil => rfl
  | snoc _ _ _ => exact absurd hnil.symm (by simp)

/-- The rule by which a variable was reached is the last one of its chain. -/
theorem via?_unitChains (h : (t, chain) ∈ g.unitChains s) :
    (g.unitChains s).via? t = chain.getLast? := by
  unfold UnitChains.via?
  cases hfind : (g.unitChains s).find? (·.1 = t) with
  | none => exact absurd (decide_eq_true rfl) (List.find?_eq_none.1 hfind (t, chain) h)
  | some entry =>
    obtain ⟨t', chain'⟩ := entry
    obtain rfl : t' = t := by simpa using List.find?_some hfind
    rw [chain_eq_of_mem_unitChains h (List.mem_of_find?_eq_some hfind)]
    rfl

/-- Going back from a variable that is reached ends where the search began, and the rules gone back
over are the chain of the variable. -/
theorem walkBack_unitChains (h : (t, chain) ∈ g.unitChains s) {fuel : Nat}
    (hfuel : chain.length ≤ fuel) : (g.unitChains s).walkBack fuel t = (s, chain) := by
  have hnil : ∀ u, (u, []) ∈ g.unitChains s → u = s := fun u hu =>
    ((reaches_unitChains g s).chains (u, []) hu).eq_of_nil
  induction fuel generalizing t chain with
  | zero =>
    obtain rfl := List.length_eq_zero_iff.1 (Nat.le_zero.1 hfuel)
    rw [UnitChains.walkBack, hnil t h]
  | succ fuel ih =>
    rw [UnitChains.walkBack, via?_unitChains h]
    by_cases hne : chain = []
    · rw [hne] at h ⊢
      rw [hnil t h]
      rfl
    · obtain ⟨rule, before, heq, hbefore⟩ := (layered_unitChains g s).back (t, chain) h hne
      obtain rfl : chain = before ++ [rule] := heq
      have hlen : before.length ≤ fuel := by simpa using hfuel
      rw [List.getLast?_concat]
      dsimp only
      rw [ih hbefore hlen]

/-! ## The record -/

/-- The rule is a shortcut for the chain of unit rules and the rule at its end: the chain leads from
the left-hand side of the one to that of the other, which is a rule of the grammar with the same
right-hand side and no unit rule. -/
structure IsShortcut (g : Grammar) (rule : Rule) (chain : Derivation) (last : Rule) : Prop where
  /-- The chain leads from the one left-hand side to the other. -/
  leads : g.UnitChain rule.lhs chain last.lhs
  /-- The rule at the end is a rule of the grammar. -/
  mem : last ∈ g.rules
  /-- The rule at the end is no unit rule. -/
  notUnit : g.isUnitRule last = false
  /-- The rules have the same right-hand side. -/
  rhs : last.rhs = rule.rhs

/-- The shortcuts of a variable are listed by the lengths of their chains. -/
theorem pairwise_shortcuts (g : Grammar) (s : Symbol) :
    (g.shortcuts s).Pairwise fun first second => first.2.length ≤ second.2.length := by
  unfold shortcuts
  rw [List.pairwise_flatMap]
  refine ⟨fun ⟨t, chain⟩ _ => ?_, ?_⟩
  · rw [List.pairwise_map]
    exact List.pairwise_of_forall fun _ _ => by simp
  · refine ((layered_unitChains g s).sorted.sublist (List.tail_sublist _)).imp ?_
    rintro ⟨t, chain⟩ ⟨t', chain'⟩ hle first hfirst second hsecond
    obtain ⟨last, -, rfl⟩ := List.mem_map.1 hfirst
    obtain ⟨last', -, rfl⟩ := List.mem_map.1 hsecond
    simpa using hle

/-- The entries of the record are the notes of the draft. -/
theorem getElem?_record_eliminateUnits_iff :
    g.eliminateUnits.record[rule]? = some steps ↔ (rule, steps) ∈ g.unitDraft.notes :=
  RuleMap.getElem?_ofList_eq_some_iff (List.nodup_append.1 (unitDraft_extends g).nodup).2.1

/-- The rules with an entry are those that are there now and were not there before. -/
theorem mem_record_eliminateUnits_iff :
    rule ∈ g.eliminateUnits.record ↔ rule ∈ g.eliminateUnits.grammar.rules ∧ rule ∉ g.rules := by
  have hnotes : rule ∈ g.eliminateUnits.record ↔ rule ∈ g.unitDraft.notes.map (·.1) := by
    rw [Std.TreeMap.mem_iff_isSome_getElem?, Option.isSome_iff_exists]
    simp only [getElem?_record_eliminateUnits_iff]
    simp
  have hgrammar : g.eliminateUnits.grammar = g.unitDraft.grammar := rfl
  rw [hnotes, (unitDraft_extends g).mem_map_notes_iff, hgrammar]
  -- A rule that is there now is no unit rule, so if it was there before it was kept.
  refine and_congr_right fun hr => not_congr ?_
  rw [mem_nonUnit_iff]
  exact ⟨fun h => h.1, fun h => ⟨h, isUnitRule_eliminateUnits hr⟩⟩

/-- A rule with an entry was not there before. -/
theorem not_mem_of_getElem?_record (h : g.eliminateUnits.record[rule]? = some steps) :
    rule ∉ g.rules := by
  have hmem : rule ∈ g.eliminateUnits.record := by
    rw [Std.TreeMap.mem_iff_isSome_getElem?, h]
    rfl
  exact (mem_record_eliminateUnits_iff.1 hmem).2

/-- An entry of the record is the first shortcut of the rule's variable that gives the rule. -/
theorem find?_shortcuts_of_getElem?_record
    (h : g.eliminateUnits.record[rule]? = some steps) :
    (g.shortcuts rule.lhs).find? (·.1 = rule) = some (rule, steps) := by
  have hnote := getElem?_record_eliminateUnits_iff.1 h
  rw [unitDraft_eq] at hnote
  have hfirst := Draft.find?_of_mem_notes (nodup_addRules List.nodup_nil) hnote
  rw [List.find?_flatMap] at hfirst
  obtain ⟨s, -, hs⟩ := List.exists_of_findSome?_eq_some hfirst
  obtain ⟨_, last, -, -, -, hrule, -⟩ := exists_of_mem_shortcuts (List.mem_of_find?_eq_some hs)
  rw [hrule] at hs ⊢
  exact hs

/-- A rule that was not there before has a shortcut for every chain that explains it, with a chain
that is not longer. -/
theorem IsShortcut.exists_mem_shortcuts {last : Rule} (h : g.IsShortcut rule chain last)
    (hnew : rule ∉ g.rules) :
    ∃ steps, (rule, steps) ∈ g.shortcuts rule.lhs ∧ steps.length ≤ chain.length + 1 := by
  obtain ⟨shortest, hmem, hle⟩ := exists_length_le_of_unitChain h.leads
  have hrule : rule = ⟨rule.lhs, last.rhs⟩ := by rw [h.rhs]
  -- The chain leads to another variable, since the rule at its end is another rule.
  have hne : last.lhs ≠ rule.lhs := by
    intro heq
    rw [hrule, ← heq] at hnew
    exact hnew h.mem
  have htail : (last.lhs, shortest) ∈ (g.unitChains rule.lhs).tail := by
    obtain ⟨rest, hrest⟩ := (reaches_unitChains g rule.lhs).first
    rw [hrest] at hmem ⊢
    rcases List.mem_cons.1 hmem with heq | hmem
    · exact absurd (congrArg Prod.fst heq) hne
    · exact hmem
  have hlast : last ∈ (g.rulesFor last.lhs).filter fun rule => !g.isUnitRule rule := by
    simpa [rulesFor, h.notUnit] using h.mem
  refine ⟨shortest ++ [last], List.mem_flatMap.2 ⟨_, htail, List.mem_map.2 ⟨last, hlast, ?_⟩⟩, ?_⟩
  · rw [← hrule]
  · simpa using hle

/-- An entry of the record is at most as long as any chain that explains the rule, with the rule at
its end. -/
theorem length_le_of_getElem?_record (h : g.eliminateUnits.record[rule]? = some steps)
    {last : Rule} (hs : g.IsShortcut rule chain last) : steps.length ≤ chain.length + 1 := by
  obtain ⟨other, hother, hle⟩ := hs.exists_mem_shortcuts (not_mem_of_getElem?_record h)
  refine Nat.le_trans ?_ hle
  -- The entry is the first shortcut with the rule, and the shortcuts are listed by length.
  obtain ⟨-, before, after, hsplit, hbefore⟩ :=
    List.find?_eq_some_iff_append.1 (find?_shortcuts_of_getElem?_record h)
  have hpair := pairwise_shortcuts g rule.lhs
  rw [hsplit] at hother hpair
  rcases List.mem_append.1 hother with hm | hm
  · exact absurd (hbefore _ hm) (by simp)
  · rcases List.mem_cons.1 hm with heq | hm
    · obtain rfl : other = steps := congrArg Prod.snd heq
      exact Nat.le_refl _
    · exact (List.pairwise_cons.1 (List.pairwise_append.1 hpair).2.1).1 _ hm

/-- The record of the elimination of unit rules is exact, whatever loops and cycles the unit rules
make. It has an entry for each rule that was not there before and for no other. The entry is a chain
of one or more unit rules and the rule at its end, and no chain that explains the rule is shorter.
Going back over the rules by which the search reached a variable always ends where the search began,
with the chain of the variable. -/
theorem unitRecord_exact (g : Grammar) :
    (∀ rule, rule ∈ g.eliminateUnits.record ↔
      rule ∈ g.eliminateUnits.grammar.rules ∧ rule ∉ g.rules) ∧
    (∀ rule steps, g.eliminateUnits.record[rule]? = some steps →
      ∃ chain last, steps = chain ++ [last] ∧ 1 ≤ chain.length ∧ g.IsShortcut rule chain last ∧
        ∀ chain' last', g.IsShortcut rule chain' last' → chain.length ≤ chain'.length) ∧
    ∀ s t chain, (t, chain) ∈ g.unitChains s → ∀ fuel, chain.length ≤ fuel →
      (g.unitChains s).walkBack fuel t = (s, chain) := by
  refine ⟨fun rule => mem_record_eliminateUnits_iff, fun rule steps h => ?_,
    fun s t chain h fuel hfuel => walkBack_unitChains h hfuel⟩
  obtain ⟨-, chain, last, hm, hunit, rfl, hchain, hrhs⟩ :=
    unitDraft_note (getElem?_record_eliminateUnits_iff.1 h)
  refine ⟨chain, last, rfl, ?_, ⟨hchain, hm, hunit, hrhs⟩, fun chain' last' hs => ?_⟩
  · -- With no unit rule in front, the rule would be the one at the end.
    refine List.length_pos_iff.2 ?_
    rintro rfl
    have hsame : rule = last := by
      rw [show rule = ⟨rule.lhs, rule.rhs⟩ from rfl, ← hrhs, ← hchain.eq_of_nil]
    exact not_mem_of_getElem?_record h (hsame ▸ hm)
  · simpa using length_le_of_getElem?_record h hs

/-- The grammar with the rules `S → A`, `A → B`, `S → C`, `B → a`, `C → a` and `C → S`. Two chains
of unit rules lead from `S` to a rule for the terminal, and the longer one begins first. -/
def branching : Grammar :=
  Grammar.empty
    |>.addVariable (some "S")
    |>.addVariable (some "A")
    |>.addVariable (some "B")
    |>.addVariable (some "C")
    |>.addTerminal "a"
    |>.setStart ⟨0⟩
    |>.addRule ⟨⟨0⟩, [⟨1⟩]⟩
    |>.addRule ⟨⟨1⟩, [⟨2⟩]⟩
    |>.addRule ⟨⟨0⟩, [⟨3⟩]⟩
    |>.addRule ⟨⟨2⟩, [⟨4⟩]⟩
    |>.addRule ⟨⟨3⟩, [⟨4⟩]⟩
    |>.addRule ⟨⟨3⟩, [⟨0⟩]⟩

/-- The chain through `A` and `B` explains the rule `S → a`, but the one recorded leads straight to
`C`, and there is none without unit rules. From `B` the way back ends at `S`. -/
theorem unitRecord_exact_branching :
    branching.validate = .ok () ∧ (⟨⟨0⟩, [⟨4⟩]⟩ : Rule) ∉ branching.rules ∧
    branching.eliminateUnits.record[(⟨⟨0⟩, [⟨4⟩]⟩ : Rule)]? =
      some [⟨⟨0⟩, [⟨3⟩]⟩, ⟨⟨3⟩, [⟨4⟩]⟩] ∧
    branching.IsShortcut ⟨⟨0⟩, [⟨4⟩]⟩ [⟨⟨0⟩, [⟨1⟩]⟩, ⟨⟨1⟩, [⟨2⟩]⟩] ⟨⟨2⟩, [⟨4⟩]⟩ ∧
    (∀ chain last, branching.IsShortcut ⟨⟨0⟩, [⟨4⟩]⟩ chain last → 1 ≤ chain.length) ∧
    (branching.unitChains ⟨0⟩).walkBack 3 ⟨2⟩ = (⟨0⟩, [⟨⟨0⟩, [⟨1⟩]⟩, ⟨⟨1⟩, [⟨2⟩]⟩]) := by
  have hget : branching.eliminateUnits.record[(⟨⟨0⟩, [⟨4⟩]⟩ : Rule)]? =
      some [⟨⟨0⟩, [⟨3⟩]⟩, ⟨⟨3⟩, [⟨4⟩]⟩] := by
    decide +kernel
  obtain ⟨hkeys, hentries, hback⟩ := unitRecord_exact branching
  have hmem : (⟨⟨0⟩, [⟨4⟩]⟩ : Rule) ∈ branching.eliminateUnits.record := by
    rw [Std.TreeMap.mem_iff_isSome_getElem?, hget]
    rfl
  obtain ⟨chain, last, -, hone, -, hshortest⟩ := hentries _ _ hget
  have hfirst : (⟨⟨0⟩, [⟨1⟩]⟩ : Rule) ∈ branching.rules := by decide +kernel
  have hsecond : (⟨⟨1⟩, [⟨2⟩]⟩ : Rule) ∈ branching.rules := by decide +kernel
  have hlonger : branching.UnitChain ⟨0⟩ [⟨⟨0⟩, [⟨1⟩]⟩, ⟨⟨1⟩, [⟨2⟩]⟩] ⟨2⟩ :=
    .cons hfirst (by decide +kernel) (.cons hsecond (by decide +kernel) .nil)
  refine ⟨by decide +kernel, ((hkeys _).1 hmem).2, hget,
    ⟨hlonger, by decide +kernel, by decide +kernel, rfl⟩, fun chain' last' hs => ?_, ?_⟩
  · exact Nat.le_trans hone (hshortest chain' last' hs)
  · exact hback ⟨0⟩ ⟨2⟩ _ (by decide +kernel) 3 (by decide +kernel)

end Grammar

end ContextFree
