import ContextFree.Grammar.Closure
import ContextFree.Grammar.Validity
import ContextFree.Proofs.Derivation.Leftmost

/-!
# Closures are least closed sets

`Grammar.close` adds symbols to a set until no rule spreads any further: it holds the set
(`Grammar.mem_close_of_mem`), it is closed (`Grammar.lhs_mem_close`), and every property that the
set has and that spreads over the rules holds of it (`Grammar.close_least`). It follows that the
nullable symbols are those that yield the empty word (`Grammar.mem_nullable_iff`), so that the start
symbol is nullable exactly when the empty word is in the language (`Grammar.startIsNullable_iff`),
and that all symbols of what spells a word are productive (`Grammar.Spells.mem_productive`).
-/

namespace ContextFree

/-- All symbols of a right-hand side that is not empty have to be in the set. -/
theorem Rule.spreads_all_iff {set : SymbolSet} {rule : Rule} :
    rule.spreads .all set = true ↔ rule.rhs ≠ [] ∧ ∀ s ∈ rule.rhs, s ∈ set := by
  simp [Rule.spreads]

namespace SymbolSet

variable {mode : Spread} {fuel : Nat} {pending : List Rule} {set : SymbolSet}

/-- Spreading keeps what is in the set. -/
theorem mem_spread_of_mem {s : Symbol} (h : s ∈ set) : s ∈ set.spread mode fuel pending := by
  induction fuel generalizing pending set with
  | zero => exact h
  | succ fuel ih =>
    unfold spread
    dsimp only
    split
    · exact h
    · exact ih (mem_insertAll.2 (.inr h))

/-- Rules that are ready are no longer pending, so fewer of them are left. -/
theorem length_pending_lt {set : SymbolSet}
    (h : ¬(pending.filter (Rule.spreads mode set)).isEmpty = true) :
    (pending.filter fun rule => !rule.spreads mode set).length < pending.length := by
  have hne : pending.filter (Rule.spreads mode set) ≠ [] := fun hnil => h (by rw [hnil]; rfl)
  obtain ⟨rule, hrule⟩ := List.exists_mem_of_ne_nil _ hne
  have ⟨hmem, hready⟩ := List.mem_filter.1 hrule
  exact List.length_filter_lt_length_iff_exists.2 ⟨rule, hmem, by simp [hready]⟩

/-- With a round for each pending rule, no pending rule spreads any further in the end. -/
theorem lhs_mem_spread (hfuel : pending.length ≤ fuel) {rule : Rule} (hr : rule ∈ pending)
    (hs : rule.spreads mode (set.spread mode fuel pending) = true) :
    rule.lhs ∈ set.spread mode fuel pending := by
  induction fuel generalizing pending set with
  | zero =>
    have hnil : pending = [] := List.length_eq_zero_iff.1 (Nat.le_zero.1 hfuel)
    rw [hnil] at hr
    exact absurd hr List.not_mem_nil
  | succ fuel ih =>
    unfold spread at hs ⊢
    dsimp only at hs ⊢
    split at hs
    · next hready =>
      -- No rule is ready, so the rule does not spread over the set as it is.
      have hmem : rule ∈ pending.filter (Rule.spreads mode set) := List.mem_filter.2 ⟨hr, hs⟩
      rw [List.isEmpty_iff.1 hready] at hmem
      exact absurd hmem List.not_mem_nil
    · next hready =>
      rw [if_neg hready]
      -- A rule that is ready now is added in this round, and another one stays pending.
      by_cases hnow : rule.spreads mode set = true
      · apply mem_spread_of_mem
        have hmem : rule ∈ pending.filter (Rule.spreads mode set) := List.mem_filter.2 ⟨hr, hnow⟩
        exact mem_insertAll.2 (.inl (List.mem_map_of_mem hmem))
      · have hlt := length_pending_lt hready
        have hleft : rule ∈ pending.filter fun rule => !rule.spreads mode set :=
          List.mem_filter.2 ⟨hr, by simpa using hnow⟩
        exact ih (by omega) hleft hs

/-- A property that spreads over the pending rules and holds of the set holds of all that is added
to it. -/
theorem spread_least {P : Symbol → Prop} (hset : ∀ s ∈ set, P s)
    (hstep : ∀ rule ∈ pending, ∀ t : SymbolSet, (∀ s ∈ t, P s) →
      rule.spreads mode t = true → P rule.lhs) :
    ∀ s ∈ set.spread mode fuel pending, P s := by
  induction fuel generalizing pending set with
  | zero => exact hset
  | succ fuel ih =>
    unfold spread
    dsimp only
    split
    · exact hset
    · refine ih (fun s hs => ?_) fun rule hr => hstep rule (List.mem_filter.1 hr).1
      rcases mem_insertAll.1 hs with hs | hs
      · obtain ⟨rule, hr, rfl⟩ := List.mem_map.1 hs
        have ⟨hmem, hready⟩ := List.mem_filter.1 hr
        exact hstep rule hmem set hset hready
      · exact hset s hs

end SymbolSet

namespace Grammar

variable {g : Grammar} {mode : Spread} {set : SymbolSet} {s : Symbol}

/-- The closure of a set holds the set. -/
theorem mem_close_of_mem (h : s ∈ set) : s ∈ g.close mode set := SymbolSet.mem_spread_of_mem h

/-- No rule spreads over the closure any further. -/
theorem lhs_mem_close {rule : Rule} (hr : rule ∈ g.rules)
    (hs : rule.spreads mode (g.close mode set) = true) : rule.lhs ∈ g.close mode set :=
  SymbolSet.lhs_mem_spread (Nat.le_refl _) hr hs

/-- A property that spreads over the rules and holds of a set holds of its closure. -/
theorem close_least {P : Symbol → Prop} (hset : ∀ s ∈ set, P s)
    (hstep : ∀ rule ∈ g.rules, ∀ t : SymbolSet, (∀ s ∈ t, P s) →
      rule.spreads mode t = true → P rule.lhs) :
    ∀ s ∈ g.close mode set, P s :=
  SymbolSet.spread_least hset hstep

/-- Marking adds the left-hand sides of the nulling rules. -/
theorem mem_markNulling :
    s ∈ g.markNulling set ↔ s ∈ set ∨ ∃ rule ∈ g.rules, rule.rhs = [] ∧ rule.lhs = s := by
  have hwiden : s ∈ (if set.isEmpty then .ofWidth g.symbols.size else set) ↔ s ∈ set := by
    split
    · next hempty =>
      -- A set that covers no symbol has no members to lose.
      have hwidth : set.width = 0 := by simpa [SymbolSet.isEmpty] using hempty
      refine ⟨fun h => absurd h SymbolSet.not_mem_ofWidth, fun h => ?_⟩
      have hcovered := set.covered s h
      omega
    · exact Iff.rfl
  rw [markNulling, SymbolSet.mem_insertAll, hwiden, or_comm]
  simp [Rule.isNulling, and_assoc]

/-- A closure that starts from the nulling rules holds the left-hand side of a rule as soon as it
holds the right-hand side, also when that is empty. -/
theorem lhs_mem_close_markNulling {rule : Rule} (hr : rule ∈ g.rules)
    (hs : ∀ s ∈ rule.rhs, s ∈ g.close .all (g.markNulling set)) :
    rule.lhs ∈ g.close .all (g.markNulling set) := by
  by_cases hnil : rule.rhs = []
  · exact mem_close_of_mem (mem_markNulling.2 (.inr ⟨rule, hr, hnil, rfl⟩))
  · exact lhs_mem_close hr (Rule.spreads_all_iff.2 ⟨hnil, hs⟩)

/-- Symbols that yield the empty word spell it together. -/
theorem spells_nil_of_yields {form : List Symbol}
    (hl : ∀ rule ∈ g.rules, g.isTerminal rule.lhs = false)
    (h : ∀ s ∈ form, g.Yields s []) : g.Spells form [] := by
  induction form with
  | nil => exact .nil
  | cons s form ih =>
    obtain ⟨rule, hm, rfl, hrhs⟩ := h s (by simp)
    have htail := ih fun t ht => h t (by simp [ht])
    exact .ofRule hm (hl rule hm) hrhs htail

/-- What spells the empty word is made of nullable symbols. -/
theorem Spells.mem_nullable {form : List Symbol} (h : g.Spells form []) :
    ∀ s ∈ form, s ∈ g.nullable :=
  h.forall_mem (fun _ hr hrhs => lhs_mem_close_markNulling hr hrhs)
    fun _ ha => absurd ha List.not_mem_nil

/-- The nullable symbols are those that yield the empty word. -/
theorem mem_nullable_iff (hl : ∀ rule ∈ g.rules, g.isTerminal rule.lhs = false) :
    s ∈ g.nullable ↔ g.Yields s [] := by
  constructor
  · intro hs
    refine close_least (P := (g.Yields · [])) (fun s hs => ?_) (fun rule hr t ht hspread => ?_) s hs
    · rcases mem_markNulling.1 hs with hs | ⟨rule, hr, hnil, rfl⟩
      · exact absurd hs SymbolSet.not_mem_ofWidth
      · exact ⟨rule, hr, rfl, by rw [hnil]; exact .nil⟩
    · have ⟨_, hall⟩ := Rule.spreads_all_iff.1 hspread
      exact ⟨rule, hr, rfl, spells_nil_of_yields hl fun s hs => ht s (hall s hs)⟩
  · rintro ⟨rule, hm, rfl, hrhs⟩
    exact lhs_mem_close_markNulling hm hrhs.mem_nullable

/-- The start symbol of a valid grammar is nullable exactly when the empty word is in the
language. -/
theorem startIsNullable_iff (hg : g.Valid) : g.startIsNullable = true ↔ g.Language [] := by
  obtain ⟨start, hstart, -, -⟩ := hg.start
  have hmem : g.startIsNullable = true ↔ start ∈ g.nullable := by
    simp [startIsNullable, hstart]
  rw [hmem, mem_nullable_iff hg.isTerminal_lhs]
  simp [Language, hstart]

/-- What spells some word is made of productive symbols. -/
theorem Spells.mem_productive {form word : List Symbol} (h : g.Spells form word) :
    ∀ s ∈ form, s ∈ g.productive := by
  refine h.forall_mem (fun _ hr hrhs => lhs_mem_close_markNulling hr hrhs) fun a ha => ?_
  have hterminal : a ∈ g.terminals := SymbolSet.contains_iff.1 (h.terminals a ha)
  exact mem_close_of_mem (mem_markNulling.2 (.inl hterminal))

/-- Symbols that spell some word each spell one together. -/
theorem exists_spells_of_forall {form : List Symbol} (h : ∀ s ∈ form, ∃ word, g.Spells [s] word) :
    ∃ word, g.Spells form word := by
  induction form with
  | nil => exact ⟨[], .nil⟩
  | cons s form ih =>
    obtain ⟨u, hu⟩ := h s (by simp)
    obtain ⟨v, hv⟩ := ih fun t ht => h t (by simp [ht])
    exact ⟨u ++ v, hu.append hv⟩

/-- The productive symbols are those that spell some word. -/
theorem mem_productive_iff (hl : ∀ rule ∈ g.rules, g.isTerminal rule.lhs = false) :
    s ∈ g.productive ↔ ∃ word, g.Spells [s] word := by
  constructor
  · intro hs
    -- A variable spells what the right-hand side of any of its rules does.
    have hrule : ∀ rule ∈ g.rules, (∃ word, g.Spells rule.rhs word) →
        ∃ word, g.Spells [rule.lhs] word := by
      rintro rule hr ⟨word, hword⟩
      exact ⟨word ++ [], .ofRule hr (hl rule hr) hword .nil⟩
    refine close_least (P := fun s => ∃ word, g.Spells [s] word) (fun s hs => ?_)
      (fun rule hr t ht hspread => ?_) s hs
    · rcases mem_markNulling.1 hs with hs | ⟨rule, hr, hnil, rfl⟩
      · exact ⟨[s], .ofTerminal (SymbolSet.contains_iff.2 hs) .nil⟩
      · exact hrule rule hr ⟨[], by rw [hnil]; exact .nil⟩
    · have ⟨_, hall⟩ := Rule.spreads_all_iff.1 hspread
      exact hrule rule hr (exists_spells_of_forall fun s hs => ht s (hall s hs))
  · rintro ⟨word, h⟩
    exact h.mem_productive s (by simp)

end Grammar

end ContextFree
