import ContextFree.Proofs.Normal.NullingFree

/-!
# What the elimination of nulling rules leaves

A rule is a variant of another one when it is what is left of it after deleting symbols, at any of
its places, that yield the empty word (`Grammar.VariantOf`). The rules after the elimination are the
variants with a right-hand side that is not empty and whose symbols all spell some word that is not
empty (`Grammar.mem_eliminateNulling_iff_variantOf`). Deleting one more symbol from a variant leaves
a variant again, so the rules are closed under deletion (`Grammar.eraseIdx_mem_eliminateNulling`).
-/

namespace ContextFree.Grammar

variable {g : Grammar} {rule origin : Rule} {s : Symbol} {k i : Nat} {places : List Nat}
  {rhs left : List Symbol} {deletions : List Deletion} {d : Derivation}

/-- The rule is what is left of the origin when the symbols at the given places are deleted, all of
which yield the empty word. -/
structure VariantOf (g : Grammar) (origin : Rule) (places : List Nat) (rule : Rule) : Prop where
  /-- Only symbols that yield the empty word are deleted. -/
  nullable : ∀ i ∈ places, ∃ s, origin.rhs[i]? = some s ∧ g.Yields s []
  /-- The rule has the other symbols. -/
  left : deleteAt origin places = rule

/-! ## Deletions by their places -/

/-- A symbol that yields the empty word has a derivation of it. -/
theorem exists_derives_nil (hl : ∀ rule ∈ g.rules, g.isTerminal rule.lhs = false)
    (h : g.Yields s []) : ∃ d, g.Derives d [s] [] := by
  obtain ⟨rule, hr, rfl, -⟩ := id h
  exact ((yields_iff_spells (hl rule hr)).1 h).exists_derives

/-- Nothing has to be deleted. -/
theorem deletes_nil (rhs : List Symbol) (k : Nat) : g.Deletes k rhs [] rhs := by
  induction rhs generalizing k with
  | nil => exact .nil
  | cons s rhs ih => exact .keep (ih (k + 1))

/-- What is left when symbols that yield the empty word are deleted is left by deletions. -/
theorem exists_deletes_keptFrom (hl : ∀ rule ∈ g.rules, g.isTerminal rule.lhs = false)
    (h : ∀ j s, rhs[j]? = some s → k + j ∈ places → g.Yields s []) :
    ∃ deletions, g.Deletes k rhs deletions (keptFrom places k rhs) := by
  induction rhs generalizing k with
  | nil => exact ⟨[], .nil⟩
  | cons s rhs ih =>
    obtain ⟨deletions, htail⟩ := ih (k := k + 1) fun j t hj hm =>
      h (j + 1) t hj (by rwa [Nat.add_assoc, Nat.add_comm 1 j] at hm)
    by_cases hk : k ∈ places
    · obtain ⟨d, hd⟩ := exists_derives_nil hl (h 0 s rfl hk)
      rw [keptFrom_cons_of_mem hk]
      exact ⟨_, .delete hd htail⟩
    · rw [keptFrom_cons_of_not_mem hk]
      exact ⟨_, .keep htail⟩

/-- What deletions leave is what is not at their places. -/
theorem Deletes.keptFrom_eq (h : g.Deletes k rhs deletions left) :
    keptFrom (deletions.map (·.position)) k rhs = left := by
  induction h with
  | nil => rfl
  | @keep k s rhs left deletions htail ih =>
    have hnot : k ∉ deletions.map (·.position) := by
      intro hmem
      obtain ⟨deletion, hdeletion, hk⟩ := List.mem_map.1 hmem
      have hle := htail.position_le deletion hdeletion
      omega
    rw [keptFrom_cons_of_not_mem hnot, ih]
  | @delete k s rhs left deletions d _ _ ih =>
    rw [List.map_cons, keptFrom_cons_of_mem (by simp), keptFrom_cons_place (Nat.lt_succ_self k), ih]

/-- Every deletion is at the place of a symbol, which its derivation takes to the empty word. -/
theorem Deletes.exists_derives (h : g.Deletes k rhs deletions left) :
    ∀ deletion ∈ deletions, ∃ j s, deletion.position = k + j ∧ rhs[j]? = some s ∧
      g.Derives deletion.derivation [s] [] := by
  induction h with
  | nil => simp
  | keep _ ih =>
    intro deletion hm
    obtain ⟨j, t, hposition, hget, hd⟩ := ih deletion hm
    exact ⟨j + 1, t, by omega, hget, hd⟩
  | delete hd _ ih =>
    refine List.forall_mem_cons.2 ⟨⟨0, _, rfl, rfl, hd⟩, fun deletion hm => ?_⟩
    obtain ⟨j, t, hposition, hget, hd⟩ := ih deletion hm
    exact ⟨j + 1, t, by omega, hget, hd⟩

/-- One more symbol that derives the empty word can be deleted from what deletions leave. -/
theorem Deletes.exists_eraseIdx (h : g.Deletes k rhs deletions left) (hi : left[i]? = some s)
    (hd : g.Derives d [s] []) : ∃ more, g.Deletes k rhs more (left.eraseIdx i) := by
  induction h generalizing i with
  | nil => exact absurd hi (by simp)
  | keep htail ih =>
    cases i with
    | zero =>
      obtain rfl := Option.some.inj hi
      exact ⟨_, .delete hd htail⟩
    | succ i =>
      obtain ⟨more, hmore⟩ := ih hi
      exact ⟨more, .keep hmore⟩
  | delete hd' _ ih =>
    obtain ⟨more, hmore⟩ := ih hi
    exact ⟨_, .delete hd' hmore⟩

/-! ## Variants -/

/-- A rule is a variant of another one exactly when deletions leave its right-hand side. -/
theorem exists_variantOf_iff (hl : ∀ rule ∈ g.rules, g.isTerminal rule.lhs = false) :
    (∃ places, g.VariantOf origin places rule) ↔
      origin.lhs = rule.lhs ∧ ∃ deletions, g.Deletes 0 origin.rhs deletions rule.rhs := by
  constructor
  · rintro ⟨places, hnullable, rfl⟩
    refine ⟨rfl, exists_deletes_keptFrom hl fun j s hj hm => ?_⟩
    rw [Nat.zero_add] at hm
    obtain ⟨t, ht, hyields⟩ := hnullable j hm
    rwa [Option.some.inj (hj.symm.trans ht)]
  · rintro ⟨hlhs, deletions, h⟩
    refine ⟨deletions.map (·.position), fun i hi => ?_, ?_⟩
    · obtain ⟨deletion, hm, rfl⟩ := List.mem_map.1 hi
      obtain ⟨j, s, hposition, hget, hd⟩ := h.exists_derives deletion hm
      rw [hposition, Nat.zero_add]
      exact ⟨s, hget, (yields_iff_spells hd.isVariable_of_nil).2 hd.spells⟩
    · have hrhs : (deleteAt origin (deletions.map (·.position))).rhs = rule.rhs := h.keptFrom_eq
      calc deleteAt origin (deletions.map (·.position))
          = ⟨origin.lhs, (deleteAt origin (deletions.map (·.position))).rhs⟩ := rfl
        _ = rule := by rw [hlhs, hrhs]

/-- The draft has the variants of all rules, but for those with an empty right-hand side. -/
theorem mem_nullingDraft_iff (hl : ∀ rule ∈ g.rules, g.isTerminal rule.lhs = false) :
    rule ∈ (g.nullingDraft (.ofGrammar g)).grammar.rules ↔
      rule.rhs ≠ [] ∧ ∃ origin ∈ g.rules, ∃ places, g.VariantOf origin places rule := by
  constructor
  · intro hr
    refine ⟨nullingDraft_rhs_ne_nil hl hr, ?_⟩
    have hentry := (nullingDraft_extends g (.ofGrammar g)).none_or_note hr (.refl _) fun _ h => h
    rcases hentry with ⟨hbase, -⟩ | ⟨expansion, hnote, -⟩
    · exact ⟨rule, (mem_nonNulling_iff.1 hbase).1,
        (exists_variantOf_iff hl).2 ⟨rfl, [], deletes_nil _ _⟩⟩
    · obtain ⟨horigin, hlhs, hdeletes, -⟩ := nullingDraft_rule hl hnote
      exact ⟨expansion.origin, horigin, (exists_variantOf_iff hl).2 ⟨hlhs, _, hdeletes⟩⟩
  · rintro ⟨hne, origin, horigin, hvariant⟩
    obtain ⟨hlhs, deletions, hdeletes⟩ := (exists_variantOf_iff hl).1 hvariant
    have hmem := mem_nullingDraft_of_deletes horigin hdeletes hne
    rwa [hlhs] at hmem

/-- The symbols that are productive in the draft are those that spell a word which is not empty. -/
theorem mem_productive_nullingDraft_iff
    (hl : ∀ rule ∈ g.rules, g.isTerminal rule.lhs = false) :
    s ∈ (g.nullingDraft (.ofGrammar g)).grammar.productive ↔
      ∃ word, word ≠ [] ∧ g.Spells [s] word := by
  rw [mem_productive_iff fun rule hr => isTerminal_lhs_nullingDraft hl hr]
  constructor
  · rintro ⟨word, h⟩
    obtain ⟨hspells, hne⟩ := (spells_eliminateNulling_iff hl).1 h.eliminateNulling
    exact ⟨word, hne, hspells⟩
  · rintro ⟨word, hne, h⟩
    have hleft := (spells_eliminateNulling_iff hl).2 ⟨h, hne⟩
    refine ⟨word, hleft.mono ?_ fun rule hr => (mem_eliminateNulling_iff.1 hr).1⟩
    rw [isTerminal_nullingDraft, isTerminal_eliminateNulling]

/-- The rules after the elimination of nulling rules are the variants with a right-hand side that is
not empty and whose symbols all spell some word that is not empty. -/
theorem mem_eliminateNulling_iff_variantOf
    (hl : ∀ rule ∈ g.rules, g.isTerminal rule.lhs = false) :
    rule ∈ g.eliminateNulling.grammar.rules ↔
      rule.rhs ≠ [] ∧ (∃ origin ∈ g.rules, ∃ places, g.VariantOf origin places rule) ∧
        ∀ s ∈ rule.rhs, ∃ word, word ≠ [] ∧ g.Spells [s] word := by
  rw [mem_eliminateNulling_iff, mem_nullingDraft_iff hl, and_assoc]
  simp only [mem_productive_nullingDraft_iff hl]

/-- A rule after the elimination of nulling rules is also there without any one of its symbols that
yield the empty word, unless nothing is left. -/
theorem eraseIdx_mem_eliminateNulling (hl : ∀ rule ∈ g.rules, g.isTerminal rule.lhs = false)
    (hr : rule ∈ g.eliminateNulling.grammar.rules) (hi : rule.rhs[i]? = some s)
    (hs : g.Yields s []) (hne : rule.rhs.eraseIdx i ≠ []) :
    (⟨rule.lhs, rule.rhs.eraseIdx i⟩ : Rule) ∈ g.eliminateNulling.grammar.rules := by
  obtain ⟨-, ⟨origin, horigin, hvariant⟩, hwords⟩ := (mem_eliminateNulling_iff_variantOf hl).1 hr
  obtain ⟨hlhs, deletions, hdeletes⟩ := (exists_variantOf_iff hl).1 hvariant
  obtain ⟨d, hd⟩ := exists_derives_nil hl hs
  obtain ⟨more, hmore⟩ := hdeletes.exists_eraseIdx hi hd
  refine (mem_eliminateNulling_iff_variantOf hl).2 ⟨hne, ⟨origin, horigin, ?_⟩, fun t ht => ?_⟩
  · exact (exists_variantOf_iff hl).2 ⟨hlhs, more, hmore⟩
  · exact hwords t ((List.eraseIdx_sublist _ _).subset ht)

/-- The elimination of nulling rules is exact. A variable yields what it did before, except for the
empty word. The rules are the variants of the rules before with a right-hand side that is not empty
and whose symbols all spell some word that is not empty. So none of them is nulling, and each is
also there without any one of its symbols that yield the empty word, unless nothing is left. -/
theorem eliminateNulling_exact (hv : g.validate = .ok ()) :
    (∀ s word, g.isTerminal s = false →
      (g.eliminateNulling.grammar.Yields s word ↔ g.Yields s word ∧ word ≠ [])) ∧
    (∀ rule, rule ∈ g.eliminateNulling.grammar.rules ↔
      rule.rhs ≠ [] ∧ (∃ origin ∈ g.rules, ∃ places, g.VariantOf origin places rule) ∧
        ∀ s ∈ rule.rhs, ∃ word, word ≠ [] ∧ g.Spells [s] word) ∧
    (∀ rule ∈ g.eliminateNulling.grammar.rules, rule.isNulling = false) ∧
    ∀ rule ∈ g.eliminateNulling.grammar.rules, ∀ i s, rule.rhs[i]? = some s → g.Yields s [] →
      rule.rhs.eraseIdx i ≠ [] →
        ⟨rule.lhs, rule.rhs.eraseIdx i⟩ ∈ g.eliminateNulling.grammar.rules := by
  have hl := (validate_eq_ok_iff.1 hv).isTerminal_lhs
  refine ⟨fun s word hs => ?_, fun rule => mem_eliminateNulling_iff_variantOf hl, fun rule hr => ?_,
    fun rule hr i s => eraseIdx_mem_eliminateNulling hl hr⟩
  · have hs' : g.eliminateNulling.grammar.isTerminal s = false := by
      rw [isTerminal_eliminateNulling, hs]
    rw [yields_iff_spells hs', yields_iff_spells hs, spells_eliminateNulling_iff hl]
  · have hne := ((mem_eliminateNulling_iff_variantOf hl).1 hr).1
    simpa [Rule.isNulling] using hne

/-- The grammar with the rules `S → A A b`, `S → A B`, `A → a`, `A → ε` and `B → ε`. The variable
`B` derives the empty word alone, and `S → A b` comes from the first rule in two ways. -/
def fading : Grammar :=
  Grammar.empty
    |>.addVariable (some "S")
    |>.addVariable (some "A")
    |>.addVariable (some "B")
    |>.addTerminal "a"
    |>.addTerminal "b"
    |>.setStart ⟨0⟩
    |>.addRule ⟨⟨0⟩, [⟨1⟩, ⟨1⟩, ⟨4⟩]⟩
    |>.addRule ⟨⟨0⟩, [⟨1⟩, ⟨2⟩]⟩
    |>.addRule ⟨⟨1⟩, [⟨3⟩]⟩
    |>.addRule ⟨⟨1⟩, []⟩
    |>.addRule ⟨⟨2⟩, []⟩

/-- The rule `S → A` is left of `S → A B`, which is dropped since `B` derives nothing any more, and
`S → A A b` is also there without its first symbol. -/
theorem eliminateNulling_exact_fading :
    fading.validate = .ok () ∧
      (∃ origin ∈ fading.rules, ∃ places, fading.VariantOf origin places ⟨⟨0⟩, [⟨1⟩]⟩) ∧
      ⟨⟨0⟩, [⟨1⟩, ⟨2⟩]⟩ ∉ fading.eliminateNulling.grammar.rules ∧
      ⟨⟨0⟩, [⟨1⟩, ⟨4⟩]⟩ ∈ fading.eliminateNulling.grammar.rules ∧
      ∀ word, fading.eliminateNulling.grammar.Yields ⟨0⟩ word ↔
        fading.Yields ⟨0⟩ word ∧ word ≠ [] := by
  have hv : fading.validate = .ok () := by decide +kernel
  obtain ⟨hwords, hrules, -, hclosed⟩ := eliminateNulling_exact hv
  have hone : ⟨⟨0⟩, [⟨1⟩]⟩ ∈ fading.eliminateNulling.grammar.rules := by decide +kernel
  have hfull : ⟨⟨0⟩, [⟨1⟩, ⟨1⟩, ⟨4⟩]⟩ ∈ fading.eliminateNulling.grammar.rules := by decide +kernel
  have hempty : fading.Yields ⟨1⟩ [] := ⟨⟨⟨1⟩, []⟩, by decide +kernel, rfl, .nil⟩
  exact ⟨hv, ((hrules _).1 hone).2.1, by decide +kernel,
    hclosed _ hfull 0 ⟨1⟩ rfl hempty (List.cons_ne_nil _ _), fun word => hwords ⟨0⟩ word rfl⟩

end ContextFree.Grammar
