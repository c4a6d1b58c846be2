import ContextFree.Proofs.Normal.SplitRecord
import Mathlib.Data.List.Nodup
import Mathlib.Data.List.Perm.Subperm
import Mathlib.Data.Option.Basic

/-!
# The names of fresh variables

A fresh variable is made by counting up until a name is free (`Binarizer.seekFresh?`). No two
numbers make the same name, and a table has finitely many names, so the search ends after at most
one round more than there are symbols, with the next free number (`Binarizer.seekFresh?_eq`). The
names made so far stand for numbers no larger than the last one, so a larger number is free in the
table that grows exactly when it was free in the grammar. Hence the numbers used are the free ones
of the grammar in ascending order (`Binarizer.Numbers`). A terminal gets a variable of its own only
where none is kept for it (`Binarizer.Wraps`).
-/

namespace ContextFree

namespace Binarizer

variable {t : SymbolTable} {last k : Nat}

/-! ## The search for a name -/

/-- A name tells the number it was made for, since its digits do. -/
theorem freshName_injective : Function.Injective freshName := by
  intro i j h
  have hdigits : Nat.toDigits 10 i = Nat.toDigits 10 j := by
    have hchars := congrArg String.toList h
    simpa [freshName, Nat.toString_eq_ofList_toDigits] using hchars
  calc
    i = Nat.ofDigitChars 10 (Nat.toDigits 10 i) 0 := Nat.ofDigitChars_ten_toDigits.symm
    _ = Nat.ofDigitChars 10 (Nat.toDigits 10 j) 0 := by rw [hdigits]
    _ = j := Nat.ofDigitChars_ten_toDigits

/-- Makes the fresh variable with the given number. -/
def freshAt (b : Binarizer) (k : Nat) : Symbol × Binarizer :=
  (b.result.next,
    { b with
      result := b.result.addVariable (some (freshName k))
      split := b.split.markIntroduced b.result.next
      lastName := k })

/-- Counts up until a name is free and makes the variable with that name, in at most the given
number of rounds. -/
def seekFresh? : Nat → Binarizer → Option (Symbol × Binarizer)
  | 0, _ => none
  | rounds + 1, b =>
    let b := { b with lastName := b.lastName + 1 }
    if b.result.symbols.isTaken (freshName b.lastName) then seekFresh? rounds b
    else some (b.freshAt b.lastName)

/-- Counting up finds the first free number, if that is among the ones looked at. -/
theorem seekFresh?_eq_map_find? (rounds : Nat) (b : Binarizer) :
    seekFresh? rounds b = ((List.range' (b.lastName + 1) rounds).find? fun k =>
      !b.result.symbols.isTaken (freshName k)).map b.freshAt := by
  induction rounds generalizing b with
  | zero => rfl
  | succ rounds ih =>
    rw [seekFresh?, List.range'_succ]
    by_cases htaken : b.result.symbols.isTaken (freshName (b.lastName + 1)) = true
    · rw [if_pos htaken, ih, List.find?_cons_of_neg (by simp [htaken])]
      rfl
    · rw [if_neg htaken, List.find?_cons_of_pos (by simp [htaken])]
      rfl

/-- More numbers than there are symbols cannot all be taken. -/
theorem exists_free (t : SymbolTable) (start : Nat) {rounds : Nat} (hrounds : t.size < rounds) :
    ∃ k ∈ List.range' start rounds, t.isTaken (freshName k) = false := by
  by_contra hall
  have htaken : (List.range' start rounds).map (fun k => some (freshName k)) ⊆ t.names := by
    intro name hname
    obtain ⟨k, hk, rfl⟩ := List.mem_map.1 hname
    rw [← SymbolTable.isTaken_iff, ← Bool.not_eq_false]
    exact fun hfree => hall ⟨k, hk, hfree⟩
  have hnodup : ((List.range' start rounds).map fun k => some (freshName k)).Nodup :=
    (List.nodup_range' 1).map ((Option.some_injective _).comp freshName_injective)
  have hlength := (List.subperm_of_subset hnodup htaken).length_le
  rw [List.length_map, List.length_range'] at hlength
  exact absurd hrounds (Nat.not_lt.2 hlength)

/-- With more rounds than there are symbols, the first free number is among those looked at. -/
theorem find?_eq_nextFree (t : SymbolTable) (last : Nat) {rounds : Nat}
    (hrounds : t.size < rounds) :
    ((List.range' (last + 1) rounds).find? fun k => !t.isTaken (freshName k)) =
      some (nextFree t last) := by
  have hfound : ((List.range' (last + 1) (t.size + 1)).find? fun k => !t.isTaken (freshName k)) =
      some (nextFree t last) := by
    have hfree : ∃ k ∈ List.range' (last + 1) (t.size + 1), (!t.isTaken (freshName k)) = true := by
      simpa using exists_free t (last + 1) (Nat.lt_succ_self t.size)
    obtain ⟨k, hk⟩ := Option.isSome_iff_exists.1 (List.find?_isSome.2 hfree)
    rw [nextFree, hk]
    rfl
  obtain ⟨extra, rfl⟩ := Nat.exists_eq_add_of_le (Nat.succ_le_of_lt hrounds)
  rw [← List.range'_append_1, List.find?_append, hfound, Option.some_or]

/-- Counting up ends, after at most one round more than there are symbols, with the variable that
`fresh` makes. -/
theorem seekFresh?_eq (b : Binarizer) {rounds : Nat} (hrounds : b.result.symbols.size < rounds) :
    seekFresh? rounds b = some b.fresh := by
  rw [seekFresh?_eq_map_find?, find?_eq_nextFree _ _ hrounds]
  rfl

/-- The number is the first one after the last whose name is free. -/
structure IsNextFree (t : SymbolTable) (last k : Nat) : Prop where
  /-- It is larger than the last one. -/
  lt : last < k
  /-- Its name is free. -/
  free : t.isTaken (freshName k) = false
  /-- The names of the numbers between are taken. -/
  taken : ∀ j, last < j → j < k → t.isTaken (freshName j) = true

theorem isNextFree_nextFree (t : SymbolTable) (last : Nat) :
    IsNextFree t last (nextFree t last) := by
  obtain ⟨hfree, hmem, htaken⟩ :=
    List.find?_range'_eq_some.1 (find?_eq_nextFree t last (Nat.lt_succ_self _))
  refine ⟨(List.mem_range'_1.1 hmem).1, by simpa using hfree, fun j hj hlt => ?_⟩
  simpa using htaken j hj hlt

/-! ## The numbers used -/

/-- The numbers up to the last one whose names are free, in ascending order. -/
def freeNumbers (t : SymbolTable) (last : Nat) : List Nat :=
  (List.range' 1 last).filter fun k => !t.isTaken (freshName k)

theorem mem_freeNumbers_iff :
    k ∈ freeNumbers t last ↔ (0 < k ∧ k ≤ last) ∧ t.isTaken (freshName k) = false := by
  have hbounds : 1 ≤ k ∧ k < 1 + last ↔ 0 < k ∧ k ≤ last := by omega
  rw [freeNumbers, List.mem_filter, List.mem_range'_1, Bool.not_eq_true', hbounds]

/-- Up to the next free number there is that number more. -/
theorem IsNextFree.freeNumbers_eq (h : IsNextFree t last k) :
    freeNumbers t k = freeNumbers t last ++ [k] := by
  obtain ⟨gap, rfl⟩ : ∃ gap, k = last + gap + 1 := Nat.exists_eq_add_of_lt h.lt
  have hgap : (List.range' (1 + last) gap).filter (fun j => !t.isTaken (freshName j)) = [] := by
    refine List.filter_eq_nil_iff.2 fun j hj => ?_
    obtain ⟨hle, hlt⟩ := List.mem_range'_1.1 hj
    rw [h.taken j (by omega) (by omega)]
    exact Bool.false_ne_true
  have hlast : 1 + (last + gap) = last + gap + 1 := Nat.add_comm ..
  rw [freeNumbers, List.range'_1_concat, ← List.range'_append_1, List.filter_append,
    List.filter_append, hgap, List.append_nil, hlast]
  congr 1
  exact List.filter_cons_of_pos (by rw [h.free]; rfl)

/-- The names added to those of the grammar are the ones made for the free numbers up to the last
one. -/
def Numbers (g : Grammar) (b : Binarizer) : Prop :=
  b.result.symbols.names =
    g.symbols.names ++ (freeNumbers g.symbols b.lastName).map fun k => some (freshName k)

variable {g : Grammar} {b : Binarizer} {made made' : List Rule}

/-- The names added are made for other numbers than the ones after the last, so for these it only
matters which names the grammar has. -/
theorem Numbers.isTaken_eq (h : b.Numbers g) (hk : b.lastName < k) :
    b.result.symbols.isTaken (freshName k) = g.symbols.isTaken (freshName k) := by
  have hnew : some (freshName k) ∉
      (freeNumbers g.symbols b.lastName).map fun j => some (freshName j) := by
    intro hmem
    obtain ⟨j, hj, he⟩ := List.mem_map.1 hmem
    obtain rfl : j = k := freshName_injective (Option.some.inj he)
    exact absurd (mem_freeNumbers_iff.1 hj).1.2 (Nat.not_le.2 hk)
  rw [Bool.eq_iff_iff, SymbolTable.isTaken_iff, SymbolTable.isTaken_iff, h, List.mem_append,
    or_iff_left hnew]

/-- A fresh variable takes the next free number of the grammar. -/
theorem Numbers.fresh (h : b.Numbers g) : b.fresh.2.Numbers g := by
  have hnext : IsNextFree b.result.symbols b.lastName b.fresh.2.lastName :=
    isNextFree_nextFree _ _
  have hnext' : IsNextFree g.symbols b.lastName b.fresh.2.lastName := by
    refine ⟨hnext.lt, ?_, fun j hj hlt => ?_⟩
    · rw [← h.isTaken_eq hnext.lt]
      exact hnext.free
    · rw [← h.isTaken_eq hj]
      exact hnext.taken j hj hlt
  rw [Numbers, hnext'.freeNumbers_eq, List.map_append, ← List.append_assoc, ← h]
  rfl

/-- Every step of the conversion numbers its variables by the free numbers of the grammar. -/
theorem kept_numbers (g : Grammar) (lhs : Symbol) : Kept lhs fun _ b => b.Numbers g where
  of_mem_iff _ h := h
  fresh _ _ h := h.fresh
  operand {made b} s h := by
    unfold Binarizer.operand
    by_cases ht : b.result.isTerminal s = true
    · rw [if_pos ht]
      cases b.wrappers.lookup s with
      | some wrapper => exact h
      | none => exact h.fresh
    · rw [if_neg ht]
      exact h
  cons _ h := h
  record {made b} rule split h := by
    rw [Numbers, result_record]
    exact h

/-! ## Variables for terminals -/

/-- A fresh variable with a rule for a single symbol is the one that is kept for that symbol. -/
def Wraps (g : Grammar) (made : List Rule) (b : Binarizer) : Prop :=
  ∀ rule ∈ made, g.symbols.size ≤ rule.lhs.id →
    ∀ a, rule.rhs = [a] → b.wrappers.lookup a = some rule.lhs

/-- Rules for two symbols or for variables of the grammar do not matter. -/
theorem Wraps.cons (h : b.Wraps g made) {rule : Rule}
    (hr : g.symbols.size ≤ rule.lhs.id → rule.rhs.length ≠ 1) : b.Wraps g (rule :: made) := by
  intro r hm hle a ha
  rcases List.mem_cons.1 hm with rfl | hm
  · exact absurd (congrArg List.length ha) (hr hle)
  · exact h r hm hle a ha

/-- A terminal that has a variable keeps it, and one that has none gets one that is kept. -/
theorem Wraps.operand (h : b.Wraps g made) (s : Symbol) :
    (b.operand s).2.Wraps g ((b.operand s).1.rules ++ made) := by
  unfold Binarizer.operand
  by_cases ht : b.result.isTerminal s = true
  · rw [if_pos ht]
    cases hw : b.wrappers.lookup s with
    | some wrapper =>
      intro rule hr hle a ha
      rcases List.mem_cons.1 hr with rfl | hr
      · obtain rfl := List.singleton_inj.1 ha
        exact hw
      · exact h rule hr hle a ha
    | none =>
      intro rule hr hle a ha
      rcases List.mem_cons.1 hr with rfl | hr
      · obtain rfl := List.singleton_inj.1 ha
        exact List.lookup_cons_self
      · -- The terminal is another one, since it had a variable before.
        have hold := h rule hr hle a ha
        have hne : a ≠ s := by
          rintro rfl
          rw [hw] at hold
          exact absurd hold (by simp)
        show ((s, b.fresh.1) :: b.wrappers).lookup a = some rule.lhs
        rw [List.lookup_cons, beq_false_of_ne hne]
        exact hold
  · rw [if_neg ht]
    exact h

/-- Every step of the conversion keeps the variables made for terminals. -/
theorem kept_wraps {lhs : Symbol} (hlhs : lhs.id < g.symbols.size) :
    Kept lhs fun made b => b.Wraps g made where
  of_mem_iff hm h rule hr := h rule ((hm rule).1 hr)
  fresh {made b} left right h := by
    have hmade : b.fresh.2.Wraps g made := h
    exact hmade.cons fun _ => by simp
  operand s h := h.operand s
  cons rhs h := h.cons fun hle => absurd hlhs (Nat.not_lt.2 hle)
  record _ _ h := h

/-! ## The names of the result -/

/-- The numbers are the smallest positive ones whose names are free, in ascending order. -/
structure FirstFree (t : SymbolTable) (numbers : List Nat) : Prop where
  /-- They ascend. -/
  ascending : numbers.Pairwise (· < ·)
  /-- They are positive and their names are free. -/
  free : ∀ k ∈ numbers, 0 < k ∧ t.isTaken (freshName k) = false
  /-- No smaller one is left out. -/
  least : ∀ k ∈ numbers, ∀ j, 0 < j → j < k → t.isTaken (freshName j) = false → j ∈ numbers

theorem firstFree_freeNumbers (t : SymbolTable) (last : Nat) :
    FirstFree t (freeNumbers t last) where
  ascending := (List.pairwise_lt_range' 1).filter _
  free _ hk := ⟨(mem_freeNumbers_iff.1 hk).1.1, (mem_freeNumbers_iff.1 hk).2⟩
  least k hk j hpos hlt hfree := by
    have hle : k ≤ last := (mem_freeNumbers_iff.1 hk).1.2
    exact mem_freeNumbers_iff.2 ⟨⟨hpos, Nat.le_trans (Nat.le_of_lt hlt) hle⟩, hfree⟩

/-- A symbol that a table gets with the name for a free number shares that name with no other. -/
theorem FirstFree.eq_of_name? {t t' : SymbolTable} {numbers : List Nat} {s s' : Symbol}
    {name : String} (h : FirstFree t numbers)
    (ht : t'.names = t.names ++ numbers.map fun k => some (freshName k)) (hs : t.size ≤ s.id)
    (hname : t'.name? s = some name) (hname' : t'.name? s' = some name) : s' = s := by
  -- A symbol made since has the name for the number in its place.
  have hnumber {x : Symbol} (hx : t.size ≤ x.id) (hn : t'.name? x = some name) :
      ∃ k, numbers[x.id - t.size]? = some k ∧ freshName k = name := by
    rw [SymbolTable.name?, ht, List.getElem?_append_right hx, List.getElem?_map,
      Option.join_eq_some_iff, Option.map_eq_some_iff] at hn
    obtain ⟨k, hk, he⟩ := hn
    exact ⟨k, hk, Option.some.inj he⟩
  obtain ⟨k, hk, rfl⟩ := hnumber hs hname
  obtain ⟨hlt, hget⟩ := List.getElem?_eq_some_iff.1 hk
  by_cases hs' : s'.id < t.size
  · have hfree := (h.free k (hget ▸ List.getElem_mem hlt)).2
    have htaken : t.isTaken (freshName k) = true := by
      rw [SymbolTable.name?, ht, List.getElem?_append_left hs', Option.join_eq_some_iff] at hname'
      exact SymbolTable.isTaken_iff.2 (List.mem_of_getElem? hname')
    rw [htaken] at hfree
    exact absurd hfree (by simp)
  · obtain ⟨k', hk', he⟩ := hnumber (Nat.le_of_not_lt hs') hname'
    obtain rfl := freshName_injective he
    have hplace := (List.getElem?_inj hlt (h.ascending.imp Nat.ne_of_lt)).1 (hk.trans hk'.symm)
    refine Symbol.ext ?_
    omega

end Binarizer

namespace Grammar

variable {g : Grammar} {normal : Stage SplitMap}

/-- The names that the conversion adds are those for the first free numbers. -/
theorem numbers_binarizer (g : Grammar) : g.binarizer.Numbers g :=
  Binarizer.Kept.binarizer (fun rule _ => Binarizer.kept_numbers g rule.lhs)
    (List.append_nil _).symm

/-- The rules of fresh variables for single symbols are for the variables kept for these. -/
theorem Convertible.wraps_binarizer (hg : g.Convertible) :
    g.binarizer.Wraps g g.binarize.grammar.rules :=
  Binarizer.Kept.binarizer
    (fun rule hr => Binarizer.kept_wraps (knows_iff.1 (hg.valid.lhs rule hr).1))
    fun _ hr => absurd hr List.not_mem_nil

/-- Where a valid grammar that is built is converted, its fresh variables are named as follows.
Counting up until a name is free always ends, and makes the fresh variable. The variables introduced
are the symbols from the size of the grammar on, and in this order they are named by the smallest
positive numbers whose names the grammar does not have, in ascending order. So an introduced
variable shares its name with no other symbol. Two introduced variables for the same terminal are
the same. -/
theorem freshNames_exact (hb : g.Built) (hv : g.validate = .ok ())
    (h : g.toNormalForm = .ok normal) :
    (∀ (b : Binarizer) (rounds : Nat), b.result.symbols.size < rounds →
        Binarizer.seekFresh? rounds b = some b.fresh) ∧
      (∀ s, normal.record.isIntroduced s = true ↔
        g.symbols.size ≤ s.id ∧ s.id < normal.grammar.symbols.size) ∧
      (∃ numbers, Binarizer.FirstFree g.symbols numbers ∧ normal.grammar.symbols.names =
        g.symbols.names ++ numbers.map fun k => some (Binarizer.freshName k)) ∧
      (∀ s s' name, normal.record.isIntroduced s = true →
        normal.grammar.symbols.name? s = some name → normal.grammar.symbols.name? s' = some name →
          s' = s) ∧
      ∀ x y a, normal.record.isIntroduced x = true → normal.record.isIntroduced y = true →
        ⟨x, [a]⟩ ∈ normal.grammar.rules → ⟨y, [a]⟩ ∈ normal.grammar.rules → x = y := by
  obtain ⟨rfl, hrules⟩ := eq_binarize_of_toNormalForm h
  have hconv : g.Convertible := ⟨hb.wellFormed, validate_eq_ok_iff.1 hv, hrules⟩
  have hintroduced := hconv.converts.sound.introduced
  have hfirst := Binarizer.firstFree_freeNumbers g.symbols g.binarizer.lastName
  refine ⟨fun b rounds => b.seekFresh?_eq, hintroduced, ⟨_, hfirst, g.numbers_binarizer⟩,
    fun s s' name hs => ?_, fun x y a hx hy hxa hya => ?_⟩
  · exact hfirst.eq_of_name? g.numbers_binarizer ((hintroduced s).1 hs).1
  · have hkeptx := hconv.wraps_binarizer _ hxa ((hintroduced x).1 hx).1 a rfl
    have hkepty := hconv.wraps_binarizer _ hya ((hintroduced y).1 hy).1 a rfl
    exact Option.some.inj (hkeptx.symm.trans hkepty)

/-- The grammar with the rules `X1 → a X1 b`, `X1 → a b` and `X3 → a`. -/
def crowded : Grammar :=
  Grammar.empty
    |>.addVariable (some "X1")
    |>.addVariable (some "X3")
    |>.addTerminal "a"
    |>.addTerminal "b"
    |>.setStart ⟨0⟩
    |>.addRule ⟨⟨0⟩, [⟨2⟩, ⟨0⟩, ⟨3⟩]⟩
    |>.addRule ⟨⟨0⟩, [⟨2⟩, ⟨3⟩]⟩
    |>.addRule ⟨⟨1⟩, [⟨2⟩]⟩

theorem crowded_built : crowded.Built :=
  .addRule _ (.addRule _ (.addRule _ (.setStart _ (.addTerminal _ (.addTerminal _ (.addVariable _
    (.addVariable _ .empty)))))))

/-- Three variables are made, and they are named `X2`, `X4` and `X5`. The fifth symbol is the only
one named `X2`, and it is the one introduced for `a`, which `X3` derives, too. -/
theorem freshNames_exact_crowded :
    crowded.validate = .ok () ∧ ∃ normal, crowded.toNormalForm = .ok normal ∧
      Binarizer.FirstFree crowded.symbols [2, 4, 5] ∧
      normal.grammar.symbols.names =
        crowded.symbols.names ++ [some "X2", some "X4", some "X5"] ∧
      (∀ s, normal.grammar.symbols.name? s = some "X2" → s = ⟨4⟩) ∧
      ∀ x, normal.record.isIntroduced x = true → ⟨x, [⟨2⟩]⟩ ∈ normal.grammar.rules → x = ⟨4⟩ := by
  have hv : crowded.validate = .ok () := by decide +kernel
  have hconverts : crowded.toNormalForm.toOption.any (fun normal =>
      decide (normal.grammar.symbols.names = crowded.symbols.names ++ [2, 4, 5].map (fun k =>
          some (Binarizer.freshName k)) ∧
        normal.grammar.symbols.name? ⟨4⟩ = some "X2" ∧ normal.record.isIntroduced ⟨4⟩ = true ∧
        ⟨⟨4⟩, [⟨2⟩]⟩ ∈ normal.grammar.rules)) = true := by
    decide +kernel
  obtain ⟨normal, hnormal, hfacts⟩ := Run.exists_eq_ok_of_any hconverts
  rw [decide_eq_true_eq] at hfacts
  obtain ⟨hnames, htwo, hfour, hrule⟩ := hfacts
  obtain ⟨-, -, ⟨numbers, hfirst, hall⟩, hunique, hwraps⟩ :=
    freshNames_exact crowded_built hv hnormal
  have hinj : Function.Injective fun k => some (Binarizer.freshName k) :=
    (Option.some_injective _).comp Binarizer.freshName_injective
  obtain rfl : numbers = [2, 4, 5] :=
    hinj.list_map (List.append_cancel_left (hall.symm.trans hnames))
  exact ⟨hv, normal, hnormal, hfirst, hnames, fun s hs => hunique _ s _ hfour htwo hs,
    fun x hx hr => hwraps x _ _ hx hfour hr hrule⟩

end Grammar

end ContextFree
