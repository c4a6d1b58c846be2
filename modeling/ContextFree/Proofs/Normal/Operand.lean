import ContextFree.Normal.Binarize
import ContextFree.Proofs.Grammar.Form

/-!
# Trees of operands

The tree of operands that a rule was split into stands for the rule: its leaves, from left to right,
are the rule's right-hand side (`Operand.frontier`). Below its top the tree is made of variables of
the grammar and of fresh ones (`Operand.Within`), and its rules are in normal form. Where fresh
variables have one rule each, the first rule of a tree determines its leaves, and with them the rule
that was split (`Operand.Splits.eq_of_top_eq`).
-/

namespace ContextFree

namespace Operand

/-- The symbols that an operand stands for, from left to right. -/
def frontier : Operand → List Symbol
  | plain symbol => [symbol]
  | lifted _ terminal => [terminal]
  | pair _ left right => left.frontier ++ right.frontier

/-- The operand is one below the top of a split: it is a variable of the grammar, or its variable is
fresh and stands for a terminal or for two such operands. -/
inductive Within (g : Grammar) : Operand → Prop where
  /-- A variable of the grammar. -/
  | plain {s : Symbol} (known : s.id < g.symbols.size) (isVariable : g.isTerminal s = false) :
      Within g (.plain s)
  /-- A fresh variable for a terminal. -/
  | lifted {x a : Symbol} (fresh : g.symbols.size ≤ x.id) (isTerminal : g.isTerminal a = true) :
      Within g (.lifted x a)
  /-- A fresh variable for two operands. -/
  | pair {x : Symbol} {left right : Operand} (fresh : g.symbols.size ≤ x.id)
      (first : Within g left) (second : Within g right) : Within g (.pair x left right)

/-- The operand is what the rule was split into: it has the rule's left-hand side for its variable,
which stands for a terminal or for two operands, and its leaves are the right-hand side. -/
inductive Splits (g : Grammar) (rule : Rule) : Operand → Prop where
  /-- The rule derives a terminal. -/
  | lifted {a : Symbol} (isTerminal : g.isTerminal a = true) (rhs : rule.rhs = [a]) :
      Splits g rule (.lifted rule.lhs a)
  /-- The rule is split in two. -/
  | pair {left right : Operand} (first : left.Within g) (second : right.Within g)
      (rhs : rule.rhs = left.frontier ++ right.frontier) :
      Splits g rule (.pair rule.lhs left right)

/-- The operands that stand for an operand in its first rule; a terminal counts as one. -/
def parts : Operand → List Operand
  | plain _ => []
  | lifted _ terminal => [plain terminal]
  | pair _ left right => [left, right]

/-- The first rule made for an operand that is no variable of the grammar. -/
def top (op : Operand) : Rule := ⟨op.symbol, op.parts.map symbol⟩

/-- The operand stands in a derivation: it is within a split, or it is a terminal. -/
def Stands (g : Grammar) (op : Operand) : Prop :=
  op.Within g ∨ ∃ a, op = plain a ∧ g.isTerminal a = true

variable {g after : Grammar} {op op' : Operand} {rule r : Rule} {word : List Symbol}

/-- A terminal below an operand stands in a derivation. -/
theorem stands_of_mem_terminal {a : Symbol} (ha : g.isTerminal a = true) :
    ∀ o ∈ [plain a], o.Stands g :=
  fun _ ho => .inr ⟨a, List.mem_singleton.1 ho, ha⟩

/-- Two operands within a split stand in a derivation. -/
theorem stands_of_mem_pair {left right : Operand} (hleft : left.Within g)
    (hright : right.Within g) : ∀ o ∈ [left, right], o.Stands g := by
  intro o ho
  rcases List.mem_cons.1 ho with rfl | ho
  · exact .inl hleft
  · exact .inl (List.mem_singleton.1 ho ▸ hright)

/-- An operand within a split is a variable of the grammar, or its variable is fresh and its first
rule replaces it by operands that stand for it. -/
theorem Within.plain_or_fresh (h : op.Within g) :
    (∃ s, op = .plain s ∧ s.id < g.symbols.size ∧ g.isTerminal s = false) ∨
      g.symbols.size ≤ op.symbol.id ∧ op.rules = op.top :: op.parts.flatMap rules ∧
        op.frontier = op.parts.flatMap frontier ∧ ∀ o ∈ op.parts, o.Stands g := by
  cases h with
  | plain hk hv => exact .inl ⟨_, rfl, hk, hv⟩
  | lifted hf ha => exact .inr ⟨hf, rfl, rfl, stands_of_mem_terminal ha⟩
  | pair hf hleft hright =>
    refine .inr ⟨hf, ?_, ?_, stands_of_mem_pair hleft hright⟩
    · simp [rules, top, parts, symbol]
    · simp [frontier, parts]

/-- The first rule of a split replaces the left-hand side of the rule by operands that stand for its
right-hand side. -/
theorem Splits.eq_top (h : op.Splits g rule) :
    op.symbol = rule.lhs ∧ op.rules = op.top :: op.parts.flatMap rules ∧
      rule.rhs = op.parts.flatMap frontier ∧ ∀ o ∈ op.parts, o.Stands g := by
  cases h with
  | lifted ha hrhs => exact ⟨rfl, rfl, hrhs, stands_of_mem_terminal ha⟩
  | pair hleft hright hrhs =>
    refine ⟨rfl, ?_, ?_, stands_of_mem_pair hleft hright⟩
    · simp [rules, top, parts, symbol]
    · simpa [parts] using hrhs

/-- The rules of a split begin with the one at the top. -/
theorem Splits.head?_rules (h : op.Splits g rule) : op.rules.head? = some op.top := by
  rw [h.eq_top.2.1, List.head?_cons]

/-- The variable of an operand within a split is no terminal. -/
theorem Within.isVariable (h : op.Within g)
    (ht : ∀ s, g.isTerminal s = true → s.id < g.symbols.size) :
    g.isTerminal op.symbol = false := by
  rcases h.plain_or_fresh with ⟨s, rfl, -, hv⟩ | ⟨hf, -⟩
  · exact hv
  · cases hs : g.isTerminal op.symbol with
    | false => rfl
    | true =>
      have := ht _ hs
      omega

/-- The rules made for an operand below the top of a split are for fresh variables. -/
theorem Within.fresh_of_mem_rules (h : op.Within g) (hr : r ∈ op.rules) :
    g.symbols.size ≤ r.lhs.id := by
  induction h with
  | plain _ _ => exact absurd hr List.not_mem_nil
  | lifted hf _ => rwa [List.mem_singleton.1 hr]
  | pair hf _ _ ihLeft ihRight =>
    rcases List.mem_cons.1 hr with rfl | hr
    · exact hf
    · exact (List.mem_append.1 hr).elim ihLeft ihRight

/-- The rules of a split other than the first one are for fresh variables. -/
theorem Splits.eq_top_or_fresh (h : op.Splits g rule) (hr : r ∈ op.rules) :
    r = op.top ∨ g.symbols.size ≤ r.lhs.id := by
  cases h with
  | lifted _ _ => exact .inl (List.mem_singleton.1 hr)
  | pair hleft hright _ =>
    rcases List.mem_cons.1 hr with rfl | hr
    · exact .inl rfl
    · exact .inr ((List.mem_append.1 hr).elim hleft.fresh_of_mem_rules hright.fresh_of_mem_rules)

/-- The leaves of the tree that a rule splits into are its right-hand side. -/
theorem Splits.frontier_eq (h : op.Splits g rule) : op.frontier = rule.rhs := by
  cases h with
  | lifted _ hrhs => exact hrhs.symm
  | pair _ _ hrhs => exact hrhs.symm

/-- The rules made for an operand below the top of a split are in normal form. -/
theorem Within.isNormalRule_of_mem_rules (h : op.Within g)
    (ht : ∀ s, g.isTerminal s = true → s.id < g.symbols.size) (hr : r ∈ op.rules) :
    g.isNormalRule r = true := by
  induction h with
  | plain _ _ => exact absurd hr List.not_mem_nil
  | lifted _ ha =>
    rw [List.mem_singleton.1 hr]
    exact Grammar.isNormalRule_iff.2 (.inl ⟨_, rfl, ha⟩)
  | pair _ hleft hright ihLeft ihRight =>
    rcases List.mem_cons.1 hr with rfl | hr
    · exact Grammar.isNormalRule_iff.2
        (.inr ⟨_, _, rfl, hleft.isVariable ht, hright.isVariable ht⟩)
    · exact (List.mem_append.1 hr).elim ihLeft ihRight

/-- The rules of a split are in normal form. -/
theorem Splits.isNormalRule_of_mem_rules (h : op.Splits g rule)
    (ht : ∀ s, g.isTerminal s = true → s.id < g.symbols.size) (hr : r ∈ op.rules) :
    g.isNormalRule r = true := by
  cases h with
  | lifted ha _ =>
    rw [List.mem_singleton.1 hr]
    exact Grammar.isNormalRule_iff.2 (.inl ⟨_, rfl, ha⟩)
  | pair hleft hright _ =>
    rcases List.mem_cons.1 hr with rfl | hr
    · exact Grammar.isNormalRule_iff.2
        (.inr ⟨_, _, rfl, hleft.isVariable ht, hright.isVariable ht⟩)
    · exact (List.mem_append.1 hr).elim (hleft.isNormalRule_of_mem_rules ht)
        (hright.isNormalRule_of_mem_rules ht)

/-- What the rules made for an operand mention is a symbol of the grammar, or a variable that one of
these rules is for. -/
def Closed (g : Grammar) (op : Operand) : Prop :=
  ∀ r ∈ op.rules, ∀ s ∈ r.rhs, s.id < g.symbols.size ∨ ∃ r' ∈ op.rules, r'.lhs = s

/-- Two operands within a split, each closed, are closed together. -/
theorem closed_pair {x : Symbol} {left right : Operand} (hleft : left.Within g)
    (hright : right.Within g) (hcl : left.Closed g) (hcr : right.Closed g) :
    (pair x left right).Closed g := by
  -- The variable of an operand is one of the grammar, or the operand's first rule is for it.
  have hsymbol : ∀ {o : Operand}, o.Within g → (∀ r ∈ o.rules, r ∈ (pair x left right).rules) →
      o.symbol.id < g.symbols.size ∨ ∃ r' ∈ (pair x left right).rules, r'.lhs = o.symbol := by
    intro o ho hsub
    rcases ho.plain_or_fresh with ⟨s, rfl, hk, -⟩ | ⟨-, hrules, -⟩
    · exact .inl hk
    · exact .inr ⟨o.top, hsub _ (hrules ▸ List.mem_cons_self), rfl⟩
  have hsubLeft : ∀ r ∈ left.rules, r ∈ (pair x left right).rules := by
    intro r hr
    simp [rules, hr]
  have hsubRight : ∀ r ∈ right.rules, r ∈ (pair x left right).rules := by
    intro r hr
    simp [rules, hr]
  intro r hr s hs
  rcases List.mem_cons.1 hr with rfl | hr
  · rcases List.mem_cons.1 hs with rfl | hs
    · exact hsymbol hleft hsubLeft
    · rw [List.mem_singleton.1 hs]
      exact hsymbol hright hsubRight
  · rcases List.mem_append.1 hr with hr | hr
    · exact (hcl r hr s hs).imp_right fun ⟨r', hr', he⟩ => ⟨r', hsubLeft r' hr', he⟩
    · exact (hcr r hr s hs).imp_right fun ⟨r', hr', he⟩ => ⟨r', hsubRight r' hr', he⟩

/-- A fresh variable for a terminal of the grammar is closed. -/
theorem closed_lifted {x a : Symbol} (ha : a.id < g.symbols.size) : (lifted x a).Closed g := by
  intro r hr s hs
  rw [List.mem_singleton.1 hr] at hs
  rw [List.mem_singleton.1 hs]
  exact .inl ha

/-- An operand below the top of a split is closed. -/
theorem Within.closed (h : op.Within g)
    (ht : ∀ s, g.isTerminal s = true → s.id < g.symbols.size) : op.Closed g := by
  induction h with
  | plain _ _ => exact fun r hr => absurd hr List.not_mem_nil
  | lifted _ ha => exact closed_lifted (ht _ ha)
  | pair _ hleft hright ihLeft ihRight => exact closed_pair hleft hright ihLeft ihRight

/-- What a rule is split into is closed. -/
theorem Splits.closed (h : op.Splits g rule)
    (ht : ∀ s, g.isTerminal s = true → s.id < g.symbols.size) : op.Closed g := by
  cases h with
  | lifted ha _ => exact closed_lifted (ht _ ha)
  | pair hleft hright _ => exact closed_pair hleft hright (hleft.closed ht) (hright.closed ht)

/-- In a grammar with the rules made for it, an operand derives what its leaves do. -/
theorem spells_symbol (op : Operand)
    (hin : ∀ r ∈ op.rules, r ∈ after.rules ∧ after.isTerminal r.lhs = false)
    (h : after.Spells op.frontier word) : after.Spells [op.symbol] word := by
  induction op generalizing word with
  | plain s => exact h
  | lifted x a =>
    obtain ⟨hm, hv⟩ := hin ⟨x, [a]⟩ (by simp [rules])
    exact (Grammar.yields_iff_spells hv).1 ⟨_, hm, rfl, h⟩
  | pair x left right ihLeft ihRight =>
    obtain ⟨u, v, rfl, hu, hv⟩ := Grammar.spells_append_iff.1 h
    have hleft := ihLeft (fun r hr => hin r (by simp [rules, hr])) hu
    have hright := ihRight (fun r hr => hin r (by simp [rules, hr])) hv
    obtain ⟨hm, hv⟩ := hin ⟨x, [left.symbol, right.symbol]⟩ (by simp [rules])
    exact (Grammar.yields_iff_spells hv).1 ⟨_, hm, rfl, hleft.append hright⟩

section Unique

variable {made : List Rule}
  (hu : ∀ rule ∈ made, ∀ other ∈ made,
    g.symbols.size ≤ rule.lhs.id → other.lhs = rule.lhs → other = rule)

include hu

/-- Where fresh variables have one rule each, operands for the same variable have the same leaves.
-/
theorem Within.frontier_eq (h : op.Within g) (h' : op'.Within g) (hs : op'.symbol = op.symbol)
    (hin : ∀ r ∈ op.rules, r ∈ made) (hin' : ∀ r ∈ op'.rules, r ∈ made) :
    op'.frontier = op.frontier := by
  induction h generalizing op' with
  | @plain s hk _ =>
    rcases h'.plain_or_fresh with ⟨s', rfl, -, -⟩ | ⟨hf, -⟩
    · exact congrArg (fun x => [x]) hs
    · rw [hs] at hf
      exact absurd hk (Nat.not_lt.2 hf)
  | @lifted x a hf _ =>
    have hrule := hu _ (hin ⟨x, [a]⟩ (by simp [rules]))
    -- The only rule of the variable tells that the other operand is lifted from the same terminal.
    cases h' with
    | plain hk' _ =>
      obtain rfl : _ = x := hs
      exact absurd hk' (Nat.not_lt.2 hf)
    | @lifted x' a' _ _ =>
      have heq := hrule _ (hin' ⟨x', [a']⟩ (by simp [rules])) hf hs
      exact congrArg Rule.rhs heq
    | @pair x' left right _ _ _ =>
      have heq := hrule _ (hin' ⟨x', [left.symbol, right.symbol]⟩ (by simp [rules])) hf hs
      exact absurd (congrArg (·.rhs.length) heq) (by simp)
  | @pair x left right hf hleft hright ihLeft ihRight =>
    have hrule := hu _ (hin ⟨x, [left.symbol, right.symbol]⟩ (by simp [rules]))
    -- The only rule of the variable has the variables of both parts, so the induction applies to
    -- these.
    cases h' with
    | plain hk' _ =>
      obtain rfl : _ = x := hs
      exact absurd hk' (Nat.not_lt.2 hf)
    | @lifted x' a' _ _ =>
      have heq := hrule _ (hin' ⟨x', [a']⟩ (by simp [rules])) hf hs
      exact absurd (congrArg (·.rhs.length) heq) (by simp)
    | @pair x' left' right' _ hleft' hright' =>
      have heq := hrule _ (hin' ⟨x', [left'.symbol, right'.symbol]⟩ (by simp [rules])) hf hs
      have hrhs : [left'.symbol, right'.symbol] = [left.symbol, right.symbol] :=
        congrArg Rule.rhs heq
      obtain ⟨hl, hr⟩ : left'.symbol = left.symbol ∧ right'.symbol = right.symbol := by
        simpa using hrhs
      rw [frontier, frontier,
        ihLeft hleft' hl (fun r hm => hin r (by simp [rules, hm]))
          (fun r hm => hin' r (by simp [rules, hm])),
        ihRight hright' hr (fun r hm => hin r (by simp [rules, hm]))
          (fun r hm => hin' r (by simp [rules, hm]))]

/-- Where fresh variables have one rule each, splits with the same first rule are of the same rule.
-/
theorem Splits.eq_of_top_eq {rule' : Rule} (h : op.Splits g rule) (h' : op'.Splits g rule')
    (htop : op'.top = op.top) (hin : ∀ r ∈ op.rules, r ∈ made)
    (hin' : ∀ r ∈ op'.rules, r ∈ made) : rule' = rule := by
  have hlhs : rule'.lhs = rule.lhs := by
    rw [← h.eq_top.1, ← h'.eq_top.1]
    exact congrArg Rule.lhs htop
  have hrhs : op'.parts.map symbol = op.parts.map symbol := congrArg Rule.rhs htop
  suffices hfront : op'.frontier = op.frontier by
    rw [h.frontier_eq, h'.frontier_eq] at hfront
    cases rule
    cases rule'
    rw [Rule.mk.injEq]
    exact ⟨hlhs, hfront⟩
  cases h with
  | lifted _ _ =>
    cases h' with
    | lifted _ _ => exact hrhs
    | pair _ _ _ => exact absurd (congrArg List.length hrhs) (by simp [parts])
  | @pair left right hleft hright _ =>
    cases h' with
    | lifted _ _ => exact absurd (congrArg List.length hrhs) (by simp [parts])
    | @pair left' right' hleft' hright' _ =>
      obtain ⟨hl, hr⟩ : left'.symbol = left.symbol ∧ right'.symbol = right.symbol := by
        simpa [parts] using hrhs
      rw [frontier, frontier,
        hleft.frontier_eq hu hleft' hl (fun r hm => hin r (by simp [rules, hm]))
          (fun r hm => hin' r (by simp [rules, hm])),
        hright.frontier_eq hu hright' hr (fun r hm => hin r (by simp [rules, hm]))
          (fun r hm => hin' r (by simp [rules, hm]))]

end Unique

end Operand

end ContextFree
