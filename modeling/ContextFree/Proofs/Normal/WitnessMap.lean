import ContextFree.Proofs.Grammar.Nullability
import Mathlib.Logic.Function.Iterate
import Std.Data.TreeMap.Lemmas

/-!
# Following witnesses by symbol

Looked up by symbol, witnesses do not show in which order they were found (`WitnessMap`). A
derivation of the empty word is written by looking up a witness, and then in the same way a witness
for each symbol on its right-hand side; nothing in the map keeps this from going on without end
(`WitnessMap.derive?` allows for a limited depth of calls). It does come to an end, since the search
takes a rule as a witness only when all symbols on its right-hand side have one already: with as
many calls inside each other as there are witnesses, what is written is the derivation that the
witnesses in their order give (`Witnesses.Grounded.derive?_toMap`). It is a complete derivation
whatever the grammar, also one with rules for terminals (`Grammar.witnesses_exact`).
-/

namespace ContextFree

/-- The witness of each symbol that has one. -/
abbrev WitnessMap := Std.TreeMap Symbol Rule

namespace WitnessMap

/-- Takes a rule as the witness of its left-hand side, if that has none and every symbol on the
right-hand side does. -/
def consider (m : WitnessMap) (rule : Rule) : WitnessMap :=
  if !m.contains rule.lhs && rule.rhs.all m.contains then m.insert rule.lhs rule else m

/-- The witnesses that are nulling rules. -/
def ofNulling (g : Grammar) : WitnessMap := (g.rules.filter Rule.isNulling).foldl consider ∅

/-- Considers every rule once, in order. -/
def sweep (g : Grammar) (m : WitnessMap) : WitnessMap := g.rules.foldl consider m

/-- Writes a derivation of the empty word from a symbol: its witness, and then a derivation from
each symbol on the right-hand side. There is no answer if `depth` calls inside each other do not
suffice. -/
def derive? (m : WitnessMap) : (depth : Nat) → Symbol → Option Derivation
  | 0, _ => none
  | depth + 1, s =>
    match m[s]? with
    | none => some []
    | some rule => (rule.rhs.mapM (derive? m depth)).map fun parts => rule :: parts.flatten

end WitnessMap

namespace Witnesses

variable {g : Grammar} {w later earlier : Witnesses} {rule : Rule} {rules : List Rule} {s : Symbol}

/-! ## The map of a list of witnesses -/

/-- The witnesses by symbol, put into the map in the order in which they were found. -/
def toMap (w : Witnesses) : WitnessMap := w.foldr (fun rule m => m.insert rule.lhs rule) ∅

theorem getElem?_toMap (w : Witnesses) (s : Symbol) : w.toMap[s]? = w.find? (·.lhs = s) := by
  induction w with
  | nil => rfl
  | cons rule earlier ih =>
    have hinsert : (toMap (rule :: earlier))[s]? =
        if compare rule.lhs s = .eq then some rule else (toMap earlier)[s]? :=
      Std.TreeMap.getElem?_insert
    simp only [hinsert, Std.LawfulEqCmp.compare_eq_iff_eq, List.find?_cons, ih]
    by_cases hs : rule.lhs = s
    · simp [hs]
    · simp [hs]

theorem contains_toMap (w : Witnesses) (s : Symbol) : w.toMap.contains s = w.covers s := by
  rw [Std.TreeMap.contains_eq_isSome_getElem?, getElem?_toMap, List.isSome_find?, covers]

/-- A rule that is taken as a witness is put into the map. -/
theorem toMap_consider (w : Witnesses) (rule : Rule) :
    (w.consider rule).toMap = w.toMap.consider rule := by
  have hcovers : w.toMap.contains = w.covers := funext w.contains_toMap
  rw [WitnessMap.consider, hcovers, consider]
  split <;> rfl

theorem toMap_foldl_consider (rules : List Rule) (w : Witnesses) :
    (rules.foldl consider w).toMap = rules.foldl WitnessMap.consider w.toMap :=
  (List.foldl_hom toMap fun w rule => (w.toMap_consider rule).symm).symm

/-! ## Sweeps -/

/-- The search is made of sweeps over the rules. -/
theorem exists_saturate_eq_iterate (rules : List Rule) (fuel : Nat) (w : Witnesses) :
    ∃ n ≤ fuel, saturate rules fuel w = (fun w => rules.foldl consider w)^[n] w := by
  induction fuel generalizing w with
  | zero => exact ⟨0, Nat.le_refl 0, rfl⟩
  | succ fuel ih =>
    unfold saturate
    dsimp only
    split
    · exact ⟨0, Nat.zero_le _, rfl⟩
    · obtain ⟨n, hn, heq⟩ := ih (rules.foldl consider w)
      exact ⟨n + 1, Nat.succ_le_succ hn, heq⟩

/-- Where every rule over covered symbols is for a covered one, a sweep changes nothing. -/
theorem foldl_consider_eq_self
    (h : ∀ rule ∈ rules, (∀ s ∈ rule.rhs, w.covers s = true) → w.covers rule.lhs = true) :
    rules.foldl consider w = w := by
  induction rules with
  | nil => rfl
  | cons rule rules ih =>
    have hstep : w.consider rule = w := by
      refine if_neg fun htake => ?_
      rw [Bool.and_eq_true, Bool.not_eq_true', List.all_eq_true] at htake
      rw [h rule (by simp) htake.2] at htake
      exact Bool.false_ne_true htake.1.symm
    rw [List.foldl_cons, hstep]
    exact ih fun r hr => h r (by simp [hr])

/-- The map of the witnesses of a grammar is what sweeps over its rules make of the nulling rules,
and one more sweep changes nothing. -/
theorem exists_iterate_sweep (g : Grammar) :
    (∃ n ≤ g.rules.length,
        (WitnessMap.sweep g)^[n] (WitnessMap.ofNulling g) = (ofGrammar g).toMap) ∧
      WitnessMap.sweep g (ofGrammar g).toMap = (ofGrammar g).toMap := by
  have hsweep : ∀ w : Witnesses,
      (g.rules.foldl consider w).toMap = WitnessMap.sweep g w.toMap :=
    toMap_foldl_consider g.rules
  constructor
  · obtain ⟨n, hn, heq⟩ := exists_saturate_eq_iterate g.rules g.rules.length
      ((g.rules.filter Rule.isNulling).foldl consider [])
    refine ⟨n, hn, ?_⟩
    rw [ofGrammar, heq, Function.Semiconj.iterate_right hsweep n, toMap_foldl_consider]
    rfl
  · rw [← hsweep, foldl_consider_eq_self fun rule hr => lhs_covered hr]

/-! ## Following the map -/

/-- What has an answer for every element of a list has all the answers together. -/
theorem mapM_eq_some_map {α β : Type} {f : α → Option β} {answer : α → β} {elements : List α}
    (h : ∀ a ∈ elements, f a = some (answer a)) :
    elements.mapM f = some (elements.map answer) := by
  induction elements with
  | nil => rfl
  | cons a elements ih =>
    rw [List.mapM_cons, h a (by simp), ih fun b hb => h b (by simp [hb])]
    rfl

/-- A witness is the one that the map has for its symbol: none was found for the symbol later. -/
theorem Grounded.getElem?_toMap (h : Grounded g (later ++ rule :: earlier)) :
    (toMap (later ++ rule :: earlier))[rule.lhs]? = some rule := by
  rw [Witnesses.getElem?_toMap]
  induction later with
  | nil => simp
  | cons found later ih =>
    obtain ⟨-, hnew, -, hrest⟩ := h
    have hne : found.lhs ≠ rule.lhs := by
      intro heq
      rw [covers_iff.2 ⟨rule, by simp, heq.symm⟩] at hnew
      exact Bool.false_ne_true hnew.symm
    rw [List.cons_append, List.find?_cons_of_neg (by simpa using hne)]
    exact ih hrest

/-- The symbols on the right-hand side of a witness have earlier ones. -/
theorem Grounded.covers_of_mem_rhs (h : Grounded g (later ++ rule :: earlier)) :
    ∀ t ∈ rule.rhs, covers earlier t = true := by
  induction later with
  | nil => exact h.2.2.1
  | cons found later ih => exact ih h.2.2.2

/-- An entry of the map is a rule of the grammar for its symbol, and the symbols on its right-hand
side have entries that were found before it. -/
theorem Grounded.exists_of_getElem?_toMap (h : Grounded g w) (hget : w.toMap[s]? = some rule) :
    rule.lhs = s ∧ rule ∈ g.rules ∧ ∃ later earlier, w = later ++ rule :: earlier ∧
      ∀ t ∈ rule.rhs, ∃ other ∈ earlier, w.toMap[t]? = some other := by
  rw [Witnesses.getElem?_toMap, List.find?_eq_some_iff_append] at hget
  obtain ⟨hs, later, earlier, rfl, -⟩ := hget
  refine ⟨by simpa using hs, h.nodup_and_mem.2 rule (by simp), later, earlier, rfl,
    fun t ht => ?_⟩
  obtain ⟨other, hother, rfl⟩ := covers_iff.1 (h.covers_of_mem_rhs t ht)
  obtain ⟨before, after, rfl⟩ := List.append_of_mem hother
  have happend : later ++ rule :: (before ++ other :: after) =
      (later ++ rule :: before) ++ other :: after := by simp
  rw [happend] at h ⊢
  exact ⟨other, by simp, h.getElem?_toMap⟩

/-- Nothing is written for a symbol without a witness. -/
theorem derive_eq_nil (h : w.covers s = false) : w.derive s = [] := by
  induction w with
  | nil => rfl
  | cons rule earlier ih =>
    rw [covers, List.any_cons, Bool.or_eq_false_iff] at h
    rw [derive, if_neg (by simpa using h.1)]
    exact ih h.2

/-- From a symbol with an earlier witness, following the map writes the derivation that the earlier
witnesses give. The depth of the calls is at most the number of these. -/
theorem Grounded.derive?_of_covers (h : Grounded g (later ++ earlier))
    (hs : covers earlier s = true) {depth : Nat} (hdepth : earlier.length ≤ depth) :
    (toMap (later ++ earlier)).derive? depth s = some (derive earlier s) := by
  induction earlier generalizing later s depth with
  | nil => exact absurd hs (by simp [covers])
  | cons rule earlier ih =>
    have happend : later ++ rule :: earlier = (later ++ [rule]) ++ earlier := by simp
    by_cases heq : rule.lhs = s
    · subst heq
      obtain ⟨depth, rfl⟩ : ∃ n, depth = n + 1 := Nat.exists_eq_succ_of_ne_zero (by
        rw [List.length_cons] at hdepth
        omega)
      rw [WitnessMap.derive?, h.getElem?_toMap, derive, if_pos rfl]
      dsimp only
      -- Each symbol on the right-hand side has a witness that was found before this one.
      have hparts : ∀ t ∈ rule.rhs, (toMap (later ++ rule :: earlier)).derive? depth t =
          some (derive earlier t) := by
        intro t ht
        have hcovered := h.covers_of_mem_rhs t ht
        rw [happend] at h ⊢
        exact ih h hcovered (Nat.le_of_succ_le_succ hdepth)
      rw [mapM_eq_some_map hparts, Option.map_some, List.flatMap_def]
    · have hcovered : covers earlier s = true := by
        simpa [covers, heq] using hs
      rw [derive, if_neg heq]
      rw [happend] at h ⊢
      exact ih h hcovered (Nat.le_of_succ_le hdepth)

/-- With more calls inside each other than there are witnesses, following the map writes the
derivation that the witnesses in their order give, whatever the symbol. -/
theorem Grounded.derive?_toMap (h : Grounded g w) {depth : Nat} (hdepth : w.length < depth)
    (s : Symbol) : w.toMap.derive? depth s = some (w.derive s) := by
  by_cases hs : w.covers s = true
  · have happend : Grounded g ([] ++ w) := h
    exact happend.derive?_of_covers hs (Nat.le_of_lt hdepth)
  · rw [Bool.not_eq_true] at hs
    obtain ⟨depth, rfl⟩ : ∃ n, depth = n + 1 :=
      Nat.exists_eq_succ_of_ne_zero (Nat.ne_zero_of_lt hdepth)
    have hnone : w.toMap[s]? = none := by
      rw [← Option.not_isSome_iff_eq_none, ← Std.TreeMap.contains_eq_isSome_getElem?,
        contains_toMap, hs]
      exact Bool.false_ne_true
    rw [WitnessMap.derive?, hnone, derive_eq_nil hs]

end Witnesses

/-! ## Derivations of the empty word -/

namespace Grammar

variable {g : Grammar} {d : Derivation} {s : Symbol}

/-- The rules make up a complete leftmost derivation of the empty word from the symbol: they are
rules of the grammar, and each of them is applied to the leftmost symbol until no symbol is left.
Since none is left, it does not matter which symbols are terminals. -/
structure EmptyDerivation (g : Grammar) (d : Derivation) (s : Symbol) : Prop where
  /-- Only rules of the grammar are applied. -/
  rules : ∀ rule ∈ d, rule ∈ g.rules
  /-- Applying the rules one after the other leaves nothing. -/
  replays : d.replay (fun _ => false) [s] = some []

/-- The grammar in which no symbol counts as a terminal. -/
def withoutTerminals (g : Grammar) : Grammar := { g with terminals := .empty }

/-- A derivation of the empty word is one in the grammar without terminals. -/
theorem emptyDerivation_iff : g.EmptyDerivation d s ↔ g.withoutTerminals.Derives d [s] [] := by
  rw [← leftmostDerivation_iff]
  exact ⟨fun h => ⟨h.rules, h.replays, by simp⟩, fun h => ⟨h.rules, h.replays⟩⟩

/-- The nullable symbols are those with a derivation of the empty word. -/
theorem mem_nullable_iff_emptyDerivation : s ∈ g.nullable ↔ ∃ d, g.EmptyDerivation d s := by
  have hvariable : ∀ t, g.withoutTerminals.isTerminal t = false := fun _ => rfl
  have hyields : s ∈ g.nullable ↔ g.withoutTerminals.Yields s [] :=
    mem_nullable_iff (g := g.withoutTerminals) fun rule _ => hvariable rule.lhs
  simp only [hyields, yields_iff_spells (hvariable s), spells_iff_exists_derives,
    emptyDerivation_iff]

/-- In a grammar with variables on the left-hand sides, a derivation of the empty word applies each
rule to the leftmost variable. -/
theorem EmptyDerivation.leftmostDerivation (h : g.EmptyDerivation d s)
    (hl : ∀ rule ∈ g.rules, g.isTerminal rule.lhs = false) : g.LeftmostDerivation d s [] := by
  have hderives : ∀ {d form word}, g.withoutTerminals.Derives d form word →
      g.Derives d form word := by
    intro d form word hd
    induction hd with
    | nil => exact .nil
    | ofTerminal ha _ _ => exact absurd ha Bool.false_ne_true
    | ofRule hm _ _ _ ihHead ihTail => exact .ofRule hm (hl _ hm) ihHead ihTail
  exact leftmostDerivation_iff.2 (hderives (emptyDerivation_iff.1 h))

/-- The witnesses of any grammar and what is written by following them. The map of the witnesses is
what sweeps over the rules make of the nulling rules, and one more sweep changes nothing. Each entry
is a rule of the grammar for its symbol, and every symbol on its right-hand side has an entry that
was found earlier. Following the map therefore comes to an end for every symbol. For a nullable
symbol it writes a complete leftmost derivation of the empty word, and for any other symbol, which
has no such derivation, it writes nothing. -/
theorem witnesses_exact (g : Grammar) :
    (∃ n ≤ g.rules.length, (WitnessMap.sweep g)^[n] (WitnessMap.ofNulling g) =
      (Witnesses.ofGrammar g).toMap) ∧
    WitnessMap.sweep g (Witnesses.ofGrammar g).toMap = (Witnesses.ofGrammar g).toMap ∧
    (∀ s rule, (Witnesses.ofGrammar g).toMap[s]? = some rule →
      rule.lhs = s ∧ rule ∈ g.rules ∧
      ∃ later earlier, Witnesses.ofGrammar g = later ++ rule :: earlier ∧
        ∀ t ∈ rule.rhs, ∃ other ∈ earlier, (Witnesses.ofGrammar g).toMap[t]? = some other) ∧
    (∀ depth > (Witnesses.ofGrammar g).length, ∀ s,
      (Witnesses.ofGrammar g).toMap.derive? depth s = some ((Witnesses.ofGrammar g).derive s)) ∧
    (∀ s ∈ g.nullable, g.EmptyDerivation ((Witnesses.ofGrammar g).derive s) s) ∧
    (∀ s ∉ g.nullable, (Witnesses.ofGrammar g).derive s = [] ∧ ¬∃ d, g.EmptyDerivation d s) ∧
    ((∀ rule ∈ g.rules, g.isTerminal rule.lhs = false) → ∀ s ∈ g.nullable,
      g.LeftmostDerivation ((Witnesses.ofGrammar g).derive s) s []) := by
  have hgrounded := Witnesses.grounded_ofGrammar g
  have hcovers : ∀ s, (Witnesses.ofGrammar g).covers s = true ↔ s ∈ g.nullable := fun s => by
    rw [← Witnesses.mem_symbols_iff, Witnesses.mem_symbols_ofGrammar_iff]
  have hderives : ∀ s ∈ g.nullable, g.EmptyDerivation ((Witnesses.ofGrammar g).derive s) s :=
    fun s hs => emptyDerivation_iff.2 <|
      Witnesses.derives_derive (g := g.withoutTerminals) (fun _ _ => rfl) ((hcovers s).2 hs)
  obtain ⟨hsweeps, hsettled⟩ := Witnesses.exists_iterate_sweep g
  refine ⟨hsweeps, hsettled, fun s rule hget => ?_,
    fun depth hdepth s => hgrounded.derive?_toMap hdepth s, hderives, fun s hs => ⟨?_, ?_⟩,
    fun hl s hs => (hderives s hs).leftmostDerivation hl⟩
  · exact hgrounded.exists_of_getElem?_toMap hget
  · exact Witnesses.derive_eq_nil (by simpa [← hcovers s] using hs)
  · exact mt mem_nullable_iff_emptyDerivation.2 hs

/-- The witness of `A` in this grammar has `B` twice, and the rule `B → B A`, which would go round
in circles, is no witness: with four calls inside each other, the empty word is derived from `S`.
From `C` nothing is written. -/
theorem witnesses_exact_erasable :
    (∀ rule ∈ erasable.rules, erasable.isTerminal rule.lhs = false) ∧ ⟨0⟩ ∈ erasable.nullable ∧
      (Witnesses.ofGrammar erasable).toMap.derive? 4 ⟨0⟩ = some [⟨⟨0⟩, [⟨1⟩, ⟨2⟩]⟩,
        ⟨⟨1⟩, [⟨2⟩, ⟨2⟩]⟩, ⟨⟨2⟩, []⟩, ⟨⟨2⟩, []⟩, ⟨⟨2⟩, []⟩] ∧
      erasable.LeftmostDerivation [⟨⟨0⟩, [⟨1⟩, ⟨2⟩]⟩, ⟨⟨1⟩, [⟨2⟩, ⟨2⟩]⟩, ⟨⟨2⟩, []⟩, ⟨⟨2⟩, []⟩,
        ⟨⟨2⟩, []⟩] ⟨0⟩ [] ∧
      (Witnesses.ofGrammar erasable).toMap.derive? 4 ⟨3⟩ = some [] := by
  have hl : ∀ rule ∈ erasable.rules, erasable.isTerminal rule.lhs = false := by decide +kernel
  have hzero : ⟨0⟩ ∈ erasable.nullable := by decide +kernel
  have hthree : ⟨3⟩ ∉ erasable.nullable := by decide +kernel
  have hlength : (Witnesses.ofGrammar erasable).length < 4 := by decide +kernel
  have hderive : (Witnesses.ofGrammar erasable).derive ⟨0⟩ = [⟨⟨0⟩, [⟨1⟩, ⟨2⟩]⟩,
      ⟨⟨1⟩, [⟨2⟩, ⟨2⟩]⟩, ⟨⟨2⟩, []⟩, ⟨⟨2⟩, []⟩, ⟨⟨2⟩, []⟩] := by
    decide +kernel
  obtain ⟨-, -, -, hdepth, -, hnone, hleftmost⟩ := witnesses_exact erasable
  refine ⟨hl, hzero, ?_, hderive ▸ hleftmost hl _ hzero, ?_⟩
  · rw [hdepth 4 hlength, hderive]
  · rw [hdepth 4 hlength, (hnone _ hthree).1]

end Grammar

end ContextFree
