import ContextFree.Grammar.Reachability
import ContextFree.Grammar.Validity
import Mathlib.Logic.Relation

/-!
# Reachability is the closure of direct derivation

Taking every symbol as the pivot in turn closes a relation under composition: after a pivot is done,
the relation composes through it, and later pivots keep that (`SymbolRelation.composes_addPivot`).
What is related after some pivots are therefore the ends of chains with none but these pivots in
between (`SymbolRelation.relates_foldl_addPivot_iff`), and in the end it is the transitive closure
(`SymbolRelation.relates_transitive_iff`). The symbols reachable from a symbol are those that chains
of rules lead to (`Grammar.mem_reachableFrom_iff_of_knows`).
-/

namespace ContextFree

namespace SymbolRelation

variable {r : SymbolRelation} {s t pivot : Symbol}

/-- The first symbol is related to the second. -/
def Relates (r : SymbolRelation) (s t : Symbol) : Prop := t ∈ r.row s

/-- Only the symbols that the relation is about are related to others. -/
theorem Relates.lt_size (h : r.Relates s t) : s.id < r.size := by
  rcases Nat.lt_or_ge s.id r.size with hlt | hge
  · exact hlt
  · have hrow : r.rows[s.id]? = none := List.getElem?_eq_none hge
    rw [Relates, row, hrow] at h
    exact absurd h SymbolSet.not_mem_empty

@[simp] theorem size_addPivot : (r.addPivot pivot).size = r.size := by
  simp [size, addPivot]

/-- After a pivot, symbols are related that were before or that the pivot joins. -/
theorem relates_addPivot_iff :
    (r.addPivot pivot).Relates s t ↔ r.Relates s t ∨ r.Relates s pivot ∧ r.Relates pivot t := by
  by_cases hs : s.id < r.rows.length
  · have hrow : r.row s = r.rows.get ⟨s.id, hs⟩ := by
      rw [row, List.getElem?_eq_getElem hs]
      rfl
    have hrow' : (r.addPivot pivot).row s =
        if (r.row s).contains pivot
          then (r.row s).insertAll (r.row pivot).members
          else r.row s := by
      rw [hrow, row, addPivot, List.getElem?_map, List.getElem?_eq_getElem hs]
      rfl
    rw [Relates, hrow']
    split
    · next hpivot =>
      rw [SymbolSet.mem_insertAll, or_comm]
      have hp : pivot ∈ r.row s := SymbolSet.contains_iff.1 hpivot
      exact or_congr_right ⟨fun h => ⟨hp, h⟩, fun h => h.2⟩
    · next hpivot =>
      refine ⟨.inl, fun h => h.resolve_right fun h => hpivot ?_⟩
      exact SymbolSet.contains_iff.2 h.1
  · -- A symbol that the relation is not about is related to none, before and after.
    refine ⟨fun h => absurd h.lt_size ?_, fun h => ?_⟩
    · rwa [size_addPivot]
    · rcases h with h | ⟨h, _⟩
      · exact absurd h.lt_size hs
      · exact absurd h.lt_size hs

/-- The relation composes through the symbol in the middle. -/
def Composes (r : SymbolRelation) (middle : Symbol) : Prop :=
  ∀ s t, r.Relates s middle → r.Relates middle t → r.Relates s t

/-- A pivot makes the relation compose through it, and keeps what it composed through before. -/
theorem composes_addPivot {middle : Symbol} (h : middle = pivot ∨ r.Composes middle) :
    (r.addPivot pivot).Composes middle := by
  intro s t hs ht
  rw [relates_addPivot_iff] at hs ht ⊢
  rcases h with rfl | h
  · -- What leads to the pivot, or from it, did so before.
    have hs' : r.Relates s middle := hs.elim id And.left
    have ht' : r.Relates middle t := ht.elim id And.right
    exact .inr ⟨hs', ht'⟩
  · -- Where the pivot joined something, it can be put last or first, and the rest composes.
    rcases hs with hs | ⟨hs, hs'⟩ <;> rcases ht with ht | ⟨ht, ht'⟩
    · exact .inl (h s t hs ht)
    · exact .inr ⟨h s pivot hs ht, ht'⟩
    · exact .inr ⟨hs, h pivot t hs' ht⟩
    · exact .inr ⟨hs, ht'⟩

/-- Pivots done one after the other make the relation compose through each of them. -/
theorem composes_foldl_addPivot (pivots : List Symbol) {middle : Symbol}
    (h : middle ∈ pivots ∨ r.Composes middle) : (pivots.foldl addPivot r).Composes middle := by
  induction pivots generalizing r with
  | nil => exact h.resolve_left List.not_mem_nil
  | cons pivot pivots ih =>
    apply ih
    rcases h with h | h
    · rcases List.mem_cons.1 h with rfl | h
      · exact .inr (composes_addPivot (.inl rfl))
      · exact .inl h
    · exact .inr (composes_addPivot (.inr h))

/-- Pivots keep what is related. -/
theorem relates_foldl_addPivot (pivots : List Symbol) (h : r.Relates s t) :
    (pivots.foldl addPivot r).Relates s t := by
  induction pivots generalizing r with
  | nil => exact h
  | cons pivot pivots ih => exact ih (relates_addPivot_iff.2 (.inl h))

/-- A chain of related symbols leads from the first symbol to the second, and the symbols in between
are among the given ones. -/
inductive Through (r : SymbolRelation) (inner : List Symbol) : Symbol → Symbol → Prop where
  /-- One step, with nothing in between. -/
  | single {s t : Symbol} (last : r.Relates s t) : Through r inner s t
  /-- A step to one of the given symbols, and a chain from there. -/
  | step {s middle t : Symbol} (first : r.Relates s middle) (mem : middle ∈ inner)
      (rest : Through r inner middle t) : Through r inner s t

/-- A chain over pairs that a pivot joins goes by the pivot. -/
theorem Through.of_addPivot {inner : List Symbol} (h : (r.addPivot pivot).Through inner s t) :
    r.Through (pivot :: inner) s t := by
  induction h with
  | single hlast =>
    rcases relates_addPivot_iff.1 hlast with hlast | ⟨hto, hfrom⟩
    · exact .single hlast
    · exact .step hto List.mem_cons_self (.single hfrom)
  | step hfirst hmem _ ih =>
    rcases relates_addPivot_iff.1 hfirst with hfirst | ⟨hto, hfrom⟩
    · exact .step hfirst (List.mem_cons_of_mem _ hmem) ih
    · exact .step hto List.mem_cons_self (.step hfrom (List.mem_cons_of_mem _ hmem) ih)

/-- After some pivots, symbols are related exactly if a chain leads from one to the other with none
but these pivots in between. -/
theorem relates_foldl_addPivot_iff (pivots : List Symbol) :
    (pivots.foldl addPivot r).Relates s t ↔ r.Through pivots s t := by
  constructor
  · intro h
    induction pivots generalizing r with
    | nil => exact .single h
    | cons pivot pivots ih => exact (ih h).of_addPivot
  · intro h
    induction h with
    | single hlast => exact relates_foldl_addPivot pivots hlast
    | @step s middle t hfirst hmem _ ih =>
      exact composes_foldl_addPivot pivots (.inl hmem) s t (relates_foldl_addPivot pivots hfirst) ih

/-- Any chain goes by symbols that the relation is about. -/
theorem through_firstN_iff :
    r.Through (Symbol.firstN r.size) s t ↔ Relation.TransGen r.Relates s t := by
  constructor
  · intro h
    induction h with
    | single hlast => exact .single hlast
    | step hfirst _ _ ih => exact .head hfirst ih
  · intro h
    induction h using Relation.TransGen.head_induction_on with
    | single hlast => exact .single hlast
    | head hfirst hrest ih =>
      -- The symbol in between is related to the next one on the chain.
      obtain ⟨_, hnext, -⟩ := Relation.TransGen.head'_iff.1 hrest
      exact .step hfirst (Symbol.mem_firstN.2 hnext.lt_size) ih

/-- Closing pivot by pivot gives the transitive closure. -/
theorem relates_transitive_iff :
    r.transitive.Relates s t ↔ Relation.TransGen r.Relates s t := by
  rw [transitive, relates_foldl_addPivot_iff, through_firstN_iff]

@[simp] theorem size_transitive : r.transitive.size = r.size := by
  rw [transitive]
  generalize Symbol.firstN r.size = pivots
  induction pivots generalizing r with
  | nil => rfl
  | cons pivot pivots ih => rw [List.foldl_cons, ih, size_addPivot]

/-- Adding the diagonal relates every symbol that the relation is about to itself, too. -/
theorem relates_reflexive_iff (hs : s.id < r.size) :
    r.reflexive.Relates s t ↔ t = s ∨ r.Relates s t := by
  have hrow : r.row s = r.rows.get ⟨s.id, hs⟩ := by
    rw [row, List.getElem?_eq_getElem hs]
    rfl
  have hrow' : r.reflexive.row s = (r.row s).insert s := by
    rw [hrow, row, reflexive, List.getElem?_map, List.getElem?_zipIdx, List.getElem?_eq_getElem hs]
    simp only [Option.map_some, Option.getD_some, Nat.zero_add]
    rfl
  rw [Relates, hrow', SymbolSet.mem_insert]
  rfl

/-- Relating a symbol to others adds exactly these pairs. -/
theorem relates_relate_iff {others : List Symbol} {x : Symbol} (hx : x.id < r.size) :
    (r.relate x others).Relates s t ↔ r.Relates s t ∨ s = x ∧ t ∈ others := by
  have hmodify : (r.relate x others).row s =
      if s = x then (r.row s).insertAll others else r.row s := by
    rw [row, relate, List.getElem?_modify, row]
    by_cases hsx : s = x
    · subst hsx
      have hget : r.rows[s.id]? = some (r.rows.get ⟨s.id, hx⟩) := List.getElem?_eq_getElem hx
      simp only [hget, if_true, Option.map_eq_map, Option.map_some, Option.getD_some]
    · have hid : ¬x.id = s.id := fun h => hsx (Symbol.ext h.symm)
      simp only [hid, hsx, if_false, Option.map_eq_map, Option.map_id']
  rw [Relates, hmodify]
  split
  · next hsx => simp [SymbolSet.mem_insertAll, hsx, Relates, or_comm]
  · next hsx => simp [hsx, Relates]

@[simp] theorem size_relate {others : List Symbol} : (r.relate s others).size = r.size := by
  simp [size, relate]

end SymbolRelation

namespace Grammar

variable {g : Grammar} {s t : Symbol}

/-- The second symbol stands on the right-hand side of a rule for the first. -/
def LeadsTo (g : Grammar) (s t : Symbol) : Prop := ∃ rule ∈ g.rules, rule.lhs = s ∧ t ∈ rule.rhs

/-- Going through rules relates their left-hand sides to what is on their right-hand sides. -/
theorem relates_foldl_relate (rules : List Rule) (r : SymbolRelation)
    (hl : ∀ rule ∈ rules, rule.lhs.id < r.size) :
    (rules.foldl (fun r rule => r.relate rule.lhs rule.rhs) r).size = r.size ∧
      ∀ s t, (rules.foldl (fun r rule => r.relate rule.lhs rule.rhs) r).Relates s t ↔
        r.Relates s t ∨ ∃ rule ∈ rules, rule.lhs = s ∧ t ∈ rule.rhs := by
  induction rules generalizing r with
  | nil => simp
  | cons rule rules ih =>
    have hsize : (r.relate rule.lhs rule.rhs).size = r.size := SymbolRelation.size_relate
    obtain ⟨hsize', hrel⟩ := ih (r.relate rule.lhs rule.rhs) fun q hq => by
      rw [hsize]
      exact hl q (by simp [hq])
    refine ⟨hsize'.trans hsize, fun s t => ?_⟩
    rw [List.foldl_cons, hrel, SymbolRelation.relates_relate_iff (hl rule (by simp)), or_assoc]
    simp [eq_comm]

@[simp] theorem size_unrelated : g.unrelated.size = g.symbols.size := by
  simp [unrelated, SymbolRelation.size, SymbolRelation.ofSize]

/-- Left-hand sides that the grammar knows are among the symbols that its relations are about. -/
theorem lhs_lt_size (hl : ∀ rule ∈ g.rules, g.knows rule.lhs = true) :
    ∀ rule ∈ g.rules, rule.lhs.id < g.unrelated.size := by
  intro rule hr
  simpa [knows, SymbolTable.knows] using hl rule hr

theorem size_directDerivation (hl : ∀ rule ∈ g.rules, g.knows rule.lhs = true) :
    g.directDerivation.size = g.symbols.size := by
  rw [directDerivation, (relates_foldl_relate g.rules g.unrelated (lhs_lt_size hl)).1,
    size_unrelated]

/-- The direct derivation relation relates a symbol to what its rules lead to. -/
theorem relates_directDerivation_iff (hl : ∀ rule ∈ g.rules, g.knows rule.lhs = true) :
    g.directDerivation.Relates s t ↔ g.LeadsTo s t := by
  have hempty : ¬g.unrelated.Relates s t := by
    intro h
    have hrow : g.unrelated.row s = .empty := by
      rw [SymbolRelation.row, unrelated, SymbolRelation.ofSize, List.getElem?_replicate]
      split <;> rfl
    rw [SymbolRelation.Relates, hrow] at h
    exact SymbolSet.not_mem_empty h
  rw [directDerivation, (relates_foldl_relate g.rules g.unrelated (lhs_lt_size hl)).2]
  exact ⟨fun h => h.resolve_left hempty, .inr⟩

/-- The closed relation relates a symbol to what chains of rules lead to. -/
theorem relates_transitive_directDerivation_iff
    (hl : ∀ rule ∈ g.rules, g.knows rule.lhs = true) :
    g.directDerivation.transitive.Relates s t ↔ Relation.TransGen g.LeadsTo s t := by
  have hrel : g.directDerivation.Relates = g.LeadsTo := by
    funext a b
    exact propext (relates_directDerivation_iff hl)
  rw [SymbolRelation.relates_transitive_iff, hrel]

/-- With all left-hand sides known, the symbols reachable from a known symbol are those that chains
of rules lead to. -/
theorem mem_reachableFrom_iff_of_knows (hl : ∀ rule ∈ g.rules, g.knows rule.lhs = true)
    (hs : g.knows s = true) : t ∈ g.reachableFrom s ↔ Relation.ReflTransGen g.LeadsTo s t := by
  have hsize : s.id < g.directDerivation.transitive.size := by
    rw [SymbolRelation.size_transitive, size_directDerivation hl]
    simpa [knows, SymbolTable.knows] using hs
  have hmem : t ∈ g.reachableFrom s ↔ g.directDerivation.transitive.reflexive.Relates s t := Iff.rfl
  rw [hmem, SymbolRelation.relates_reflexive_iff hsize, relates_transitive_directDerivation_iff hl,
    Relation.reflTransGen_iff_eq_or_transGen]

/-- The symbols reachable from a symbol of a valid grammar are those that chains of rules lead to.
-/
theorem mem_reachableFrom_iff (hg : g.Valid) (hs : g.knows s = true) :
    t ∈ g.reachableFrom s ↔ Relation.ReflTransGen g.LeadsTo s t :=
  mem_reachableFrom_iff_of_knows (fun rule hr => (hg.lhs rule hr).1) hs

end Grammar

end ContextFree
