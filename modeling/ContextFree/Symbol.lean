/-!
# Symbols

A symbol stands for a terminal or a variable of a grammar and is known by its number alone: the
first symbol made has number zero, the next one number one. Symbols are ordered by their numbers
(`Symbol.lt_iff`). Numbers that come from outside are read as 32-bit words (`Symbol.ofWord`), and
the word of all ones is kept free to mean "no symbol", so it names none
(`Symbol.ofWord_eq_error_iff`).
-/

namespace ContextFree

/-- A symbol of a grammar. -/
structure Symbol where
  /-- The number of the symbol, counted from zero in the order in which symbols are made. -/
  id : Nat
deriving DecidableEq, Repr, Inhabited

namespace Symbol

/-- Symbols compare as their numbers do. -/
instance : Ord Symbol := ⟨compareOn Symbol.id⟩

instance : LT Symbol := ⟨fun a b => a.id < b.id⟩

/-- One symbol comes before another when its number is smaller. -/
theorem lt_iff {a b : Symbol} : a < b ↔ a.id < b.id := Iff.rfl

instance (a b : Symbol) : Decidable (a < b) := inferInstanceAs (Decidable (a.id < b.id))

/-- Symbols with equal numbers are equal. -/
@[ext] theorem ext {a b : Symbol} (h : a.id = b.id) : a = b := by
  cases a; cases b; simp_all

instance : Std.TransOrd Symbol := inferInstanceAs (Std.TransCmp (compareOn Symbol.id))

instance : Std.LawfulEqOrd Symbol where
  compare_self {a} := (Std.ReflCmp.compare_self : compare a.id a.id = .eq)
  eq_of_compare h := ext (Std.LawfulEqOrd.eq_of_compare h)

/-- The symbol that is made first. -/
def first : Symbol := ⟨0⟩

/-- The first `n` symbols, in the order in which they are made. -/
def firstN (n : Nat) : List Symbol := (List.range n).map Symbol.mk

/-- A symbol is among the first `n` exactly when its number is below `n`. -/
@[simp] theorem mem_firstN {n : Nat} {s : Symbol} : s ∈ firstN n ↔ s.id < n := by
  simp only [firstN, List.mem_map, List.mem_range]
  exact ⟨fun ⟨_, h, e⟩ => e ▸ h, fun h => ⟨s.id, h, rfl⟩⟩

/-- How many words there are for symbols, counting the one that is kept free. -/
def wordCount : Nat := 0x100000000

/-- Why a number from outside names no symbol. -/
inductive NumberError where
  /-- The number's low 32 bits are all ones, which means "no symbol". -/
  | noSymbol
deriving DecidableEq, Repr

/-- The message for a number that names no symbol. -/
def NumberError.message : NumberError → String
  | .noSymbol => "invalid conversion from a null id to non-null Symbol"

/-- The symbol that a number from outside names: only its low 32 bits count. -/
def ofWord (n : Nat) : Except NumberError Symbol :=
  if n % wordCount + 1 = wordCount then .error .noSymbol else .ok ⟨n % wordCount⟩

/-- Only the word of all ones names no symbol. -/
theorem ofWord_eq_error_iff {n : Nat} :
    ofWord n = .error .noSymbol ↔ n % wordCount + 1 = wordCount := by
  unfold ofWord; split <;> simp_all

/-- A symbol as it is written inside error messages. -/
def describe (s : Symbol) : String := "Symbol(" ++ toString s.id ++ ")"

end Symbol

end ContextFree
