import ContextFree.Proofs.Grammar.Worklist
import Mathlib.Logic.Function.Iterate
import Mathlib.Order.Bounds.Basic
import Std.Data.TreeMap.Lemmas

/-!
# Closures by an index of occurrences

The rules that a symbol occurs in are kept in an index that is made once, before the search begins:
for each symbol the places of these rules (`OccurrenceMap.ofRules`), ascending and each of them once
however often the symbol occurs (`OccurrenceMap.get_ofRules`). A round of the search takes the
symbol on top of the stack and looks at the rules in its entry (`Worklist.step`). The rounds come to
an end, and there are exactly as many as the closure has members, since each member is put on the
stack once (`Worklist.exists_iterate_step`). What is left in the end is the least closed set,
whatever the set to begin with (`Grammar.close_exact`).
-/

namespace ContextFree

variable {g : Grammar} {mode : Spread} {rule : Rule} {rules : List Rule} {s : Symbol}

/-! ## The index of occurrences -/

/-- For each symbol, the places of the rules that it occurs in on the right-hand side. -/
abbrev OccurrenceMap := Std.TreeMap Symbol (List Nat)

/-- A set lists each of its members once. -/
theorem SymbolSet.nodup_members (set : SymbolSet) : set.members.Nodup := by
  refine set.ascending.imp fun {a b} hlt heq => ?_
  rw [heq] at hlt
  exact Nat.lt_irrefl _ (Symbol.lt_iff.1 hlt)

namespace OccurrenceMap

variable {m : OccurrenceMap}

/-- The places for a symbol; none for a symbol without an entry. -/
def get (m : OccurrenceMap) (s : Symbol) : List Nat := m.getD s []

/-- Puts a place behind those of a symbol. -/
def note (place : Nat) (m : OccurrenceMap) (s : Symbol) : OccurrenceMap :=
  m.alter s fun places => some (places.getD [] ++ [place])

/-- Puts the place of a rule behind those of each symbol on its right-hand side. The symbols are
taken in order and without repetitions, so the place is put there once. -/
def noteRule (m : OccurrenceMap) (entry : Rule × Nat) : OccurrenceMap :=
  (SymbolSet.ofList entry.1.rhs).members.foldl (note entry.2) m

/-- The index of a list of rules. -/
def ofRules (rules : List Rule) : OccurrenceMap := rules.zipIdx.foldl noteRule ∅

theorem get_note (place : Nat) (m : OccurrenceMap) (s t : Symbol) :
    (m.note place s).get t = m.get t ++ if s = t then [place] else [] := by
  rw [get, note, Std.TreeMap.getD_alter]
  simp only [Std.LawfulEqCmp.compare_eq_iff_eq]
  split
  · next heq =>
    subst heq
    rw [get, Std.TreeMap.getD_eq_getD_getElem?]
    rfl
  · rw [get, List.append_nil]

/-- Noting a place for different symbols puts it behind the places of each of them. -/
theorem get_foldl_note (place : Nat) {symbols : List Symbol} (hnodup : symbols.Nodup) :
    (symbols.foldl (note place) m).get s = m.get s ++ if s ∈ symbols then [place] else [] := by
  induction symbols generalizing m with
  | nil => simp
  | cons t symbols ih =>
    obtain ⟨hnew, hrest⟩ := List.nodup_cons.1 hnodup
    rw [List.foldl_cons, ih hrest, get_note]
    by_cases heq : t = s
    · subst heq
      simp [hnew]
    · simp [heq, Ne.symm heq]

/-- A rule puts its place behind those of the symbols that it has on the right-hand side. -/
theorem get_noteRule (m : OccurrenceMap) (rule : Rule) (place : Nat) :
    (m.noteRule (rule, place)).get s =
      m.get s ++ if rule.rhs.contains s then [place] else [] := by
  have hmem : s ∈ (SymbolSet.ofList rule.rhs).members ↔ rule.rhs.contains s = true := by
    rw [List.contains_iff_mem]
    exact SymbolSet.mem_ofList
  simp only [noteRule, get_foldl_note place (SymbolSet.nodup_members _), hmem]

/-- The entry of a symbol in the index has the places of the rules that it occurs in, in order and
each of them once. -/
theorem get_ofRules (rules : List Rule) (s : Symbol) :
    (ofRules rules).get s =
      (rules.zipIdx.filter fun entry => entry.1.rhs.contains s).map (·.2) := by
  have hfold : ∀ (entries : List (Rule × Nat)) (m : OccurrenceMap),
      (entries.foldl noteRule m).get s =
        m.get s ++ (entries.filter fun entry => entry.1.rhs.contains s).map (·.2) := by
    intro entries
    induction entries with
    | nil => simp
    | cons entry entries ih =>
      intro m
      rw [List.foldl_cons, ih, get_noteRule, List.filter_cons, List.append_assoc]
      split <;> simp
  rw [ofRules, hfold, get, Std.TreeMap.getD_emptyc, List.nil_append]

/-- Looking up the places in a symbol's entry gives the rules that the symbol occurs in. -/
theorem filterMap_get_ofRules (g : Grammar) (s : Symbol) :
    ((ofRules g.rules).get s).filterMap (g.rules[·]?) = g.occurrences s := by
  have hplaces : ∀ entries : List (Rule × Nat), (∀ entry ∈ entries, entry ∈ g.rules.zipIdx) →
      (entries.map (·.2)).filterMap (g.rules[·]?) = entries.map (·.1) := by
    intro entries
    induction entries with
    | nil => exact fun _ => rfl
    | cons entry entries ih =>
      intro hmem
      have hentry := List.mem_zipIdx_iff_getElem?.1 (hmem entry (by simp))
      rw [List.map_cons, List.filterMap_cons_some hentry, List.map_cons,
        ih fun e he => hmem e (List.mem_cons_of_mem _ he)]
  rw [get_ofRules, hplaces _ fun entry he => (List.mem_filter.1 he).1, Grammar.occurrences]
  conv_rhs => rw [← List.zipIdx_map_fst 0 g.rules, List.filter_map]
  rfl

end OccurrenceMap

/-! ## The rounds of the search -/

/-- A new member makes a set larger by one. -/
theorem SymbolSet.count_insert_of_not_mem {set : SymbolSet} (h : s ∉ set) :
    (set.insert s).count = set.count + 1 := by
  have hperm : (set.insert s).members.Perm (s :: set.members) := by
    refine (List.perm_ext_iff_of_nodup (nodup_members _) (List.nodup_cons.2 ⟨h, nodup_members _⟩)).2
      fun t => ?_
    rw [List.mem_cons]
    exact mem_insert
  exact hperm.length_eq

namespace Worklist

variable {w : Worklist}

/-- The worklist of a set: every member is to be looked at, the last one first. -/
def start (set : SymbolSet) : Worklist := ⟨set, set.members.reverse⟩

/-- Looks at the rule in the given place. -/
def lookAt (g : Grammar) (mode : Spread) (w : Worklist) (place : Nat) : Worklist :=
  g.rules[place]?.elim w (w.look mode)

/-- One round: takes the symbol on top of the stack and looks at the rules in its entry of the
index. With an empty stack there is nothing to do. -/
def step (g : Grammar) (mode : Spread) : Worklist → Worklist
  | ⟨set, []⟩ => ⟨set, []⟩
  | ⟨set, s :: stack⟩ => ((OccurrenceMap.ofRules g.rules).get s).foldl (lookAt g mode) ⟨set, stack⟩

/-- A round looks at the occurrences of the symbol on top of the stack. -/
theorem step_cons (set : SymbolSet) (s : Symbol) (stack : List Symbol) :
    step g mode ⟨set, s :: stack⟩ = (g.occurrences s).foldl (look mode) ⟨set, stack⟩ := by
  rw [step, ← OccurrenceMap.filterMap_get_ofRules, List.foldl_filterMap]
  congr 1
  funext w place
  rw [lookAt]
  cases g.rules[place]? <;> rfl

/-- A symbol that is put on the stack is a new member, so both grow alike. -/
theorem count_foldl_look (mode : Spread) (rules : List Rule) (w : Worklist) :
    (rules.foldl (look mode) w).set.count + w.stack.length =
      w.set.count + (rules.foldl (look mode) w).stack.length := by
  induction rules generalizing w with
  | nil => rfl
  | cons rule rules ih =>
    have hrest := ih (w.look mode rule)
    rw [List.foldl_cons]
    rcases look_cases mode w rule with ⟨heq, -⟩ | ⟨heq, hnew, -⟩
    · rw [heq] at hrest ⊢
      exact hrest
    · rw [heq, SymbolSet.count_insert_of_not_mem hnew, List.length_cons] at hrest
      rw [heq]
      omega

/-- The rounds come to an end with the closure and an empty stack. Each symbol that was on the stack
or is new takes one of them. -/
theorem exists_iterate_step (g : Grammar) (mode : Spread) (w : Worklist) :
    ∃ n, (step g mode)^[n] w = ⟨run g mode w, []⟩ ∧
      (∀ k < n, ((step g mode)^[k] w).stack ≠ []) ∧
      (run g mode w).count + w.stack.length = w.set.count + n := by
  fun_induction run g mode w with
  | case1 set => exact ⟨0, rfl, fun k hk => absurd hk (Nat.not_lt_zero k), rfl⟩
  | case2 set s stack ih =>
    obtain ⟨n, hend, hbefore, hcount⟩ := ih
    have hlook := count_foldl_look mode (g.occurrences s) ⟨set, stack⟩
    rw [← step_cons] at hend hbefore
    refine ⟨n + 1, hend.trans (by rw [step_cons]), fun k hk => ?_, ?_⟩
    · cases k with
      | zero => exact List.cons_ne_nil s stack
      | succ k => exact hbefore k (Nat.lt_of_succ_lt_succ hk)
    · rw [List.length_cons]
      dsimp only at hlook ⊢
      omega

end Worklist

/-! ## The least closed set -/

namespace Grammar

/-- The closure of a set is the least set with its members from which nothing spreads any
further. -/
theorem isLeast_close (g : Grammar) (mode : Spread) (set : SymbolSet) :
    IsLeast {N : Set Symbol | (∀ s ∈ set, s ∈ N) ∧
        ∀ rule ∈ g.rules, rule.SpreadsFrom mode N → rule.lhs ∈ N}
      {s | s ∈ g.close mode set} := by
  refine ⟨⟨fun s hs => mem_close_of_mem hs, fun rule hr hspread => ?_⟩, ?_⟩
  · exact lhs_mem_close hr (Rule.spreadsFrom_iff.1 hspread)
  · rintro N ⟨hset, hclosed⟩ s hs
    refine close_least (P := (· ∈ N)) hset (fun rule hr t ht hspread => ?_) s hs
    exact hclosed rule hr ((Rule.spreadsFrom_iff.2 hspread).mono ht)

/-- The closure of any set of symbols, whether the grammar made them or not, is exact. When a
property spreads from all symbols of a right-hand side, the closure is the least set that has the
members of the set, and the left-hand side of each rule with a right-hand side that is not empty and
has members only; when it spreads from any symbol, the least set that has them, and the left-hand
side of each rule with a member on the right-hand side. The search with a stack ends with this
closure, and it takes exactly as many rounds as the closure has members. -/
theorem close_exact (g : Grammar) (set : SymbolSet) :
    IsLeast {N : Set Symbol | (∀ s ∈ set, s ∈ N) ∧
        ∀ rule ∈ g.rules, rule.rhs ≠ [] → (∀ s ∈ rule.rhs, s ∈ N) → rule.lhs ∈ N}
      {s | s ∈ g.close .all set} ∧
    IsLeast {N : Set Symbol | (∀ s ∈ set, s ∈ N) ∧
        ∀ rule ∈ g.rules, (∃ s ∈ rule.rhs, s ∈ N) → rule.lhs ∈ N}
      {s | s ∈ g.close .any set} ∧
    ∀ mode,
      (Worklist.step g mode)^[(g.close mode set).count] (.start set) = ⟨g.close mode set, []⟩ ∧
      ∀ k < (g.close mode set).count,
        ((Worklist.step g mode)^[k] (.start set)).stack ≠ [] := by
  refine ⟨?_, g.isLeast_close .any set, fun mode => ?_⟩
  · simpa only [Rule.SpreadsFrom, and_imp] using g.isLeast_close .all set
  · obtain ⟨n, hend, hbefore, hcount⟩ := Worklist.exists_iterate_step g mode (.start set)
    have hrun : Worklist.run g mode (.start set) = g.close mode set := g.closeByWork_eq mode set
    rw [hrun] at hend hcount
    have hstart : (Worklist.start set).stack.length = (Worklist.start set).set.count := by
      simp [Worklist.start, SymbolSet.count]
    obtain rfl : n = (g.close mode set).count := by omega
    exact ⟨hend, hbefore⟩

end Grammar

end ContextFree
