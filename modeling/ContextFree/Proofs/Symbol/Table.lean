import ContextFree.Symbol.Table

/-!
# Tables that grow

A table extends another one when it made the other's symbols first, with the same names
(`SymbolTable.Extends`). Symbols then keep their names (`SymbolTable.Extends.name?_eq`) and are
still the first ones with them (`SymbolTable.Extends.find?_eq_some`). Making symbols extends a table
(`SymbolTable.extends_add`, `SymbolTable.extends_addAll`).
-/

namespace ContextFree.SymbolTable

variable {t t' t'' : SymbolTable} {s : Symbol} {name : String}

/-- Making symbols makes one for each name. -/
theorem size_addAll (t : SymbolTable) (names : List (Option String)) :
    (t.addAll names).2.size = t.size + names.length := by
  induction names generalizing t with
  | nil => rfl
  | cons name names ih =>
    have hstep : (t.addAll (name :: names)).2 = ((t.add name).addAll names).2 := rfl
    rw [hstep, ih, size_add, List.length_cons]
    omega

/-- The second table made the symbols of the first one before its others, with the same names. -/
def Extends (t t' : SymbolTable) : Prop := t.names <+: t'.names

theorem Extends.refl (t : SymbolTable) : t.Extends t := List.prefix_rfl

theorem Extends.trans (h : t.Extends t') (h' : t'.Extends t'') : t.Extends t'' :=
  List.IsPrefix.trans h h'

/-- Making a symbol extends the table. -/
theorem extends_add (t : SymbolTable) (name : Option String) : t.Extends (t.add name) :=
  List.prefix_append ..

/-- Making several symbols extends the table. -/
theorem extends_addAll (t : SymbolTable) (names : List (Option String)) :
    t.Extends (t.addAll names).2 := by
  induction names generalizing t with
  | nil => exact .refl t
  | cons name names ih => exact (t.extends_add name).trans (ih (t.add name))

/-- A table that extends another has no fewer symbols. -/
theorem Extends.size_le (h : t.Extends t') : t.size ≤ t'.size := List.IsPrefix.length_le h

/-- The symbols of a table keep their names when it grows. -/
theorem Extends.name?_eq (h : t.Extends t') (hs : s.id < t.size) : t'.name? s = t.name? s := by
  obtain ⟨names, hnames⟩ := h
  unfold name?
  rw [← hnames, List.getElem?_append_left hs]

/-- A symbol with a name was made by the table. -/
theorem lt_size_of_name? (h : t.name? s = some name) : s.id < t.size := by
  refine Nat.lt_of_not_le fun hge => ?_
  unfold name? at h
  rw [List.getElem?_eq_none hge] at h
  exact absurd h (by simp)

/-- A name given once stays. -/
theorem Extends.name?_eq_some (h : t.Extends t') (hs : t.name? s = some name) :
    t'.name? s = some name := by
  rw [h.name?_eq (lt_size_of_name? hs), hs]

/-- The first symbol with a name stays the first one. -/
theorem Extends.find?_eq_some (h : t.Extends t') (hs : t.find? name = some s) :
    t'.find? name = some s := by
  obtain ⟨names, hnames⟩ := h
  obtain ⟨i, hi, rfl⟩ := Option.map_eq_some_iff.1 hs
  unfold find?
  rw [← hnames, List.findIdx?_append, hi]
  rfl

/-- A symbol found under a name has it. -/
theorem name?_of_find? (h : t.find? name = some s) : t.name? s = some name := by
  obtain ⟨i, hi, rfl⟩ := Option.map_eq_some_iff.1 h
  obtain ⟨hlt, hname, -⟩ := List.findIdx?_eq_some_iff_getElem.1 hi
  unfold name?
  rw [List.getElem?_eq_getElem hlt, beq_iff_eq.1 hname]
  rfl

/-- A symbol with a name that was free is the one found under it. -/
theorem find?_add_next (h : t.find? name = none) :
    (t.add (some name)).find? name = some t.next := by
  have hnone : t.names.findIdx? (· == some name) = none := Option.map_eq_none_iff.1 h
  unfold find? add
  rw [List.findIdx?_append, hnone]
  simp [next, size]

end ContextFree.SymbolTable
