import ContextFree.Normal.Witness
import ContextFree.Proofs.Derivation.Leftmost
import Mathlib.Data.List.Perm.Subperm

/-!
# Witnesses of the empty word are found for exactly the symbols that yield it

Each witness is a rule whose symbols have witnesses found before it (`Witnesses.Grounded`), so
following witnesses writes down a derivation of the empty word (`Witnesses.derives_derive`). The
search goes on until no rule can be added: there are no more witnesses than rules, so it has enough
rounds (`Witnesses.lhs_covered`). What spells the empty word therefore has witnesses
(`Witnesses.covers_of_spells`).
-/

namespace ContextFree.Witnesses

variable {g : Grammar} {w : Witnesses} {rule : Rule} {rules : List Rule} {s : Symbol}

theorem covers_iff : w.covers s = true ↔ ∃ rule ∈ w, rule.lhs = s := by
  simp [covers]

/-- The symbols with a witness are those covered. -/
theorem mem_symbols_iff : s ∈ w.symbols ↔ w.covers s = true := by
  rw [symbols, SymbolSet.mem_ofList, covers_iff, List.mem_map]

/-- Every witness is a rule for a symbol without an earlier one, over symbols that have earlier
ones. -/
def Grounded (g : Grammar) : Witnesses → Prop
  | [] => True
  | rule :: earlier => rule ∈ g.rules ∧ covers earlier rule.lhs = false ∧
      (∀ s ∈ rule.rhs, covers earlier s = true) ∧ Grounded g earlier

/-- Considering a rule of the grammar keeps witnesses grounded. -/
theorem Grounded.consider (h : Grounded g w) (hr : rule ∈ g.rules) :
    Grounded g (w.consider rule) := by
  unfold Witnesses.consider
  split
  · next htake =>
    rw [Bool.and_eq_true, Bool.not_eq_true', List.all_eq_true] at htake
    exact ⟨hr, htake.1, htake.2, h⟩
  · exact h

theorem Grounded.foldl_consider (h : Grounded g w) (hr : ∀ rule ∈ rules, rule ∈ g.rules) :
    Grounded g (rules.foldl Witnesses.consider w) := by
  induction rules generalizing w with
  | nil => exact h
  | cons rule rules ih =>
    exact ih (h.consider (hr rule (by simp))) fun r hm => hr r (by simp [hm])

theorem Grounded.saturate (h : Grounded g w) (hr : ∀ rule ∈ rules, rule ∈ g.rules) (fuel : Nat) :
    Grounded g (Witnesses.saturate rules fuel w) := by
  induction fuel generalizing w with
  | zero => exact h
  | succ fuel ih =>
    unfold Witnesses.saturate
    dsimp only
    split
    · exact h
    · exact ih (h.foldl_consider hr)

/-- The nulling rules that the search begins with are grounded. -/
theorem grounded_nulling (g : Grammar) :
    Grounded g ((g.rules.filter Rule.isNulling).foldl consider []) :=
  Grounded.foldl_consider trivial fun _ h => (List.mem_filter.1 h).1

/-- The witnesses of a grammar are grounded. -/
theorem grounded_ofGrammar (g : Grammar) : Grounded g (ofGrammar g) :=
  (grounded_nulling g).saturate (fun _ h => h) _

/-- Witnesses are rules of the grammar, each for another symbol. -/
theorem Grounded.nodup_and_mem (h : Grounded g w) : w.Nodup ∧ ∀ rule ∈ w, rule ∈ g.rules := by
  induction w with
  | nil => simp
  | cons rule earlier ih =>
    obtain ⟨hr, hnew, -, hearlier⟩ := h
    obtain ⟨hnodup, hmem⟩ := ih hearlier
    refine ⟨List.nodup_cons.2 ⟨fun hin => ?_, hnodup⟩, List.forall_mem_cons.2 ⟨hr, hmem⟩⟩
    rw [covers_iff.2 ⟨rule, hin, rfl⟩] at hnew
    exact Bool.false_ne_true hnew.symm

/-! ## Following witnesses -/

/-- Following grounded witnesses from a covered symbol derives the empty word. -/
theorem Grounded.derives_derive (hl : ∀ rule ∈ g.rules, g.isTerminal rule.lhs = false)
    (h : Grounded g w) (hs : w.covers s = true) : g.Derives (w.derive s) [s] [] := by
  induction w generalizing s with
  | nil => exact absurd hs (by simp [covers])
  | cons rule earlier ih =>
    obtain ⟨hr, -, hrhs, hearlier⟩ := h
    unfold derive
    split
    · next heq =>
      subst heq
      -- The symbols of the rule have earlier witnesses, so the induction derives from each of them.
      have hbelow : ∀ form : List Symbol, (∀ t ∈ form, covers earlier t = true) →
          g.Derives (form.flatMap (derive earlier)) form [] := by
        intro form hform
        induction form with
        | nil => exact .nil
        | cons t form ihform =>
          have hhead := ih hearlier (hform t (by simp))
          have htail := ihform fun u hu => hform u (by simp [hu])
          exact hhead.append htail
      exact (Grammar.derives_variable_iff (hl rule hr)).2
        ⟨rule, hr, rfl, _, rfl, hbelow rule.rhs hrhs⟩
    · next hne =>
      -- The rule is for another symbol, so the witness is an earlier one.
      refine ih hearlier ?_
      obtain ⟨r, hm, hrs⟩ := covers_iff.1 hs
      rcases List.mem_cons.1 hm with rfl | hm
      · exact absurd hrs hne
      · exact covers_iff.2 ⟨r, hm, hrs⟩

/-! ## Enough rounds -/

/-- A round takes witnesses on and drops none; if it takes none on, every rule over covered symbols
is for a covered symbol. -/
theorem length_le_foldl_consider (rules : List Rule) (w : Witnesses) :
    w.length ≤ (rules.foldl consider w).length ∧
      ((rules.foldl consider w).length = w.length →
        ∀ rule ∈ rules, (∀ s ∈ rule.rhs, w.covers s = true) → w.covers rule.lhs = true) := by
  induction rules generalizing w with
  | nil => simp
  | cons rule rules ih =>
    obtain ⟨hle, hclosed⟩ := ih (w.consider rule)
    rw [List.foldl_cons]
    by_cases htake : (!w.covers rule.lhs && rule.rhs.all w.covers) = true
    · have hstep : w.consider rule = rule :: w := if_pos htake
      rw [hstep, List.length_cons] at hle
      rw [hstep]
      -- A witness was taken on, so the lengths differ.
      refine ⟨by omega, fun h => ?_⟩
      omega
    · have hstep : w.consider rule = w := if_neg htake
      rw [hstep] at hle hclosed ⊢
      refine ⟨hle, fun h => List.forall_mem_cons.2 ⟨fun hrhs => ?_, hclosed h⟩⟩
      rw [Bool.and_eq_true, List.all_eq_true] at htake
      simpa using fun hnew => htake ⟨hnew, hrhs⟩

/-- As many witnesses as rules leave no rule out. -/
theorem Grounded.mem_of_length_le (h : Grounded g w) (hlen : g.rules.length ≤ w.length)
    (hr : rule ∈ g.rules) : rule ∈ w := by
  obtain ⟨hnodup, hmem⟩ := h.nodup_and_mem
  have hsub : w.Subperm g.rules := List.subperm_of_subset hnodup hmem
  exact (hsub.perm_of_length_le hlen).mem_iff.2 hr

/-- With a round for each rule that is not yet a witness, the search ends when every rule over
covered symbols is for a covered symbol. -/
theorem Grounded.lhs_covered_saturate (h : Grounded g w) {fuel : Nat}
    (hfuel : g.rules.length ≤ w.length + fuel) (hr : rule ∈ g.rules)
    (hs : ∀ s ∈ rule.rhs, (Witnesses.saturate g.rules fuel w).covers s = true) :
    (Witnesses.saturate g.rules fuel w).covers rule.lhs = true := by
  induction fuel generalizing w with
  -- Without rounds left, every rule is a witness itself.
  | zero => exact covers_iff.2 ⟨rule, h.mem_of_length_le hfuel hr, rfl⟩
  | succ fuel ih =>
    obtain ⟨hle, hclosed⟩ := length_le_foldl_consider g.rules w
    unfold Witnesses.saturate at hs ⊢
    dsimp only at hs ⊢
    split at hs
    · next hsame =>
      rw [if_pos hsame]
      exact hclosed hsame rule hr hs
    · next hmore =>
      rw [if_neg hmore]
      exact ih (h.foldl_consider fun _ hm => hm) (by omega) hs

/-- Every rule over symbols with witnesses is for a symbol with a witness. -/
theorem lhs_covered (hr : rule ∈ g.rules) (hs : ∀ s ∈ rule.rhs, (ofGrammar g).covers s = true) :
    (ofGrammar g).covers rule.lhs = true :=
  (grounded_nulling g).lhs_covered_saturate (Nat.le_add_left _ _) hr hs

/-- All symbols of what spells the empty word have witnesses. -/
theorem covers_of_spells {form : List Symbol} (h : g.Spells form []) :
    ∀ s ∈ form, (ofGrammar g).covers s = true :=
  h.forall_mem (fun _ hr hrhs => lhs_covered hr hrhs) fun _ ha => absurd ha List.not_mem_nil

/-- A symbol with a witness derives the empty word by following witnesses. -/
theorem derives_derive (hl : ∀ rule ∈ g.rules, g.isTerminal rule.lhs = false)
    (hs : (ofGrammar g).covers s = true) : g.Derives ((ofGrammar g).derive s) [s] [] :=
  (grounded_ofGrammar g).derives_derive hl hs

end ContextFree.Witnesses
