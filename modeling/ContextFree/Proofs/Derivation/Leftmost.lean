import ContextFree.Derivation.Replay
import ContextFree.Language

/-!
# Complete leftmost derivations

`Grammar.Derives` is the relation of `Grammar.Spells` with the rules written down: besides the
symbols and the word it has the rules that were applied, in pre-order. It composes place by place
(`Grammar.derives_append_iff`), so it is the form in which proofs about derivations go.
`Grammar.LeftmostDerivation` says the same of a single symbol without trees, by replaying the rules
on the leftmost variable, and `Grammar.leftmostDerivation_iff` shows that the two agree. A word is
spelled exactly when some derivation of it exists (`Grammar.spells_iff_exists_derives`).
-/

namespace ContextFree.Grammar

/-- The rules, in pre-order, derive the word from the symbols: terminals stand for themselves, and
a variable is replaced by the right-hand side of the first rule, which the next rules derive its
part of the word from. -/
inductive Derives (g : Grammar) : Derivation → List Symbol → List Symbol → Prop where
  /-- No rules derive the empty word from no symbols. -/
  | nil : Derives g [] [] []
  /-- A terminal stands for itself and takes no rule. -/
  | ofTerminal {d : Derivation} {a : Symbol} {rest word : List Symbol}
      (isTerminal : g.isTerminal a = true) (tail : Derives g d rest word) :
      Derives g d (a :: rest) (a :: word)
  /-- A variable takes a rule for it, then the rules below it. -/
  | ofRule {rule : Rule} {d e : Derivation} {rest part word : List Symbol} (mem : rule ∈ g.rules)
      (isVariable : g.isTerminal rule.lhs = false) (head : Derives g d rule.rhs part)
      (tail : Derives g e rest word) :
      Derives g (rule :: (d ++ e)) (rule.lhs :: rest) (part ++ word)

/-- The rules make up a complete leftmost derivation of the word from the symbol: they are rules of
the grammar, applying each of them to the leftmost variable is possible at every step, and what they
end in is the word, which is made of terminals. -/
structure LeftmostDerivation (g : Grammar) (d : Derivation) (s : Symbol) (word : List Symbol) :
    Prop where
  /-- Only rules of the grammar are applied. -/
  rules : ∀ rule ∈ d, rule ∈ g.rules
  /-- Replaying the rules from the symbol ends in the word. -/
  replays : Derivation.replay g.isTerminal d [s] = some word
  /-- The word is made of terminals. -/
  terminals : ∀ a ∈ word, g.isTerminal a = true

instance (g : Grammar) (d : Derivation) (s : Symbol) (word : List Symbol) :
    Decidable (g.LeftmostDerivation d s word) :=
  decidable_of_iff ((∀ rule ∈ d, rule ∈ g.rules) ∧
      Derivation.replay g.isTerminal d [s] = some word ∧ ∀ a ∈ word, g.isTerminal a = true)
    ⟨fun ⟨hr, hd, hw⟩ => ⟨hr, hd, hw⟩, fun ⟨hr, hd, hw⟩ => ⟨hr, hd, hw⟩⟩

variable {g g' : Grammar} {d e : Derivation} {form rest word : List Symbol}

/-- Terminals derive themselves without any rule. -/
theorem derives_self (h : ∀ a ∈ word, g.isTerminal a = true) : g.Derives [] word word := by
  induction word with
  | nil => exact .nil
  | cons a word ih => exact .ofTerminal (h a (by simp)) (ih fun b hb => h b (by simp [hb]))

/-- Terminals derive nothing but themselves. -/
theorem Derives.of_terminals (h : g.Derives d form word) (hf : ∀ a ∈ form, g.isTerminal a = true) :
    d = [] ∧ word = form := by
  induction h with
  | nil => exact ⟨rfl, rfl⟩
  | ofTerminal _ _ ih =>
    obtain ⟨rfl, rfl⟩ := ih fun b hb => hf b (by simp [hb])
    exact ⟨rfl, rfl⟩
  | @ofRule rule _ _ _ _ _ _ hv _ _ _ _ =>
    have ht : g.isTerminal rule.lhs = true := hf rule.lhs (by simp)
    rw [hv] at ht
    exact absurd ht Bool.false_ne_true

/-- Only rules of the grammar occur in a derivation. -/
theorem Derives.mem_rules (h : g.Derives d form word) : ∀ rule ∈ d, rule ∈ g.rules := by
  induction h with
  | nil => simp
  | ofTerminal _ _ ih => exact ih
  | ofRule hm _ _ _ ihHead ihTail =>
    intro rule hr
    rcases List.mem_cons.1 hr with rfl | hr
    · exact hm
    · exact (List.mem_append.1 hr).elim (ihHead rule) (ihTail rule)

/-- What has a derivation is spelled. -/
theorem Derives.spells (h : g.Derives d form word) : g.Spells form word := by
  induction h with
  | nil => exact .nil
  | ofTerminal ha _ ih => exact .ofTerminal ha ih
  | ofRule hm hv _ _ ihHead ihTail => exact .ofRule hm hv ihHead ihTail

/-- What is spelled has a derivation. -/
theorem Spells.exists_derives (h : g.Spells form word) : ∃ d, g.Derives d form word := by
  induction h with
  | nil => exact ⟨[], .nil⟩
  | ofTerminal ha _ ih =>
    obtain ⟨d, hd⟩ := ih
    exact ⟨d, .ofTerminal ha hd⟩
  | ofRule hm hv _ _ ihHead ihTail =>
    obtain ⟨d, hd⟩ := ihHead
    obtain ⟨e, he⟩ := ihTail
    exact ⟨_, .ofRule hm hv hd he⟩

/-- A word is spelled exactly when it has a derivation. -/
theorem spells_iff_exists_derives : g.Spells form word ↔ ∃ d, g.Derives d form word :=
  ⟨Spells.exists_derives, fun ⟨_, h⟩ => h.spells⟩

/-- A word that is derived is made of terminals. -/
theorem Derives.terminals (h : g.Derives d form word) : ∀ a ∈ word, g.isTerminal a = true :=
  h.spells.terminals

/-- A derivation stays one in a grammar with more rules over the same terminals. -/
theorem Derives.mono (h : g.Derives d form word) (ht : g'.isTerminal = g.isTerminal)
    (hr : ∀ rule ∈ g.rules, rule ∈ g'.rules) : g'.Derives d form word := by
  induction h with
  | nil => exact .nil
  | ofTerminal ha _ ih => exact .ofTerminal (ht ▸ ha) ih
  | ofRule hm hv _ _ ihHead ihTail => exact .ofRule (hr _ hm) (ht ▸ hv) ihHead ihTail

/-- A word stays spelled in a grammar with more rules over the same terminals. -/
theorem Spells.mono (h : g.Spells form word) (ht : g'.isTerminal = g.isTerminal)
    (hr : ∀ rule ∈ g.rules, rule ∈ g'.rules) : g'.Spells form word := by
  obtain ⟨d, hd⟩ := h.exists_derives
  exact (hd.mono ht hr).spells

/-- Every symbol of a word that is spelled was there or comes from the right-hand side of a rule. -/
theorem Spells.mem_or_mem_rhs (h : g.Spells form word) {a : Symbol} (ha : a ∈ word) :
    a ∈ form ∨ ∃ rule ∈ g.rules, a ∈ rule.rhs := by
  induction h with
  | nil => exact absurd ha List.not_mem_nil
  | @ofTerminal b rest word _ _ ih =>
    rcases List.mem_cons.1 ha with rfl | ha
    · exact .inl List.mem_cons_self
    · exact (ih ha).imp_left (List.mem_cons_of_mem b)
  | @ofRule rule rest part word hm _ _ _ ihHead ihTail =>
    rcases List.mem_append.1 ha with ha | ha
    · exact .inr ((ihHead ha).elim (fun hr => ⟨rule, hm, hr⟩) id)
    · exact (ihTail ha).imp_left (List.mem_cons_of_mem rule.lhs)

/-- What holds of all symbols of a word that is spelled, and of the left-hand side of each rule for
whose right-hand side it holds, holds of all symbols that spell the word. -/
theorem Spells.forall_mem {P : Symbol → Prop} (h : g.Spells form word)
    (hrule : ∀ rule ∈ g.rules, (∀ s ∈ rule.rhs, P s) → P rule.lhs) (hword : ∀ a ∈ word, P a) :
    ∀ s ∈ form, P s := by
  induction h with
  | nil => exact hword
  | ofTerminal _ _ ih =>
    obtain ⟨ha, hrest⟩ := List.forall_mem_cons.1 hword
    exact List.forall_mem_cons.2 ⟨ha, ih hrest⟩
  | ofRule hm _ _ _ ihHead ihTail =>
    obtain ⟨hpart, hrest⟩ := List.forall_mem_append.1 hword
    exact List.forall_mem_cons.2 ⟨hrule _ hm (ihHead hpart), ihTail hrest⟩

/-- Without nulling rules, symbols spell a word that is not empty. -/
theorem Spells.ne_nil (hne : ∀ rule ∈ g.rules, rule.rhs ≠ []) (h : g.Spells form word)
    (hf : form ≠ []) : word ≠ [] := by
  induction h with
  | nil => exact absurd rfl hf
  | ofTerminal _ _ _ => simp
  | @ofRule rule _ part word hm _ _ _ ihHead _ =>
    intro hw
    exact ihHead (hne rule hm) (List.append_eq_nil_iff.1 hw).1

/-! ## One place after the other -/

/-- Two derivations one after the other derive from both lists of symbols together. -/
theorem Derives.append {first second u v : List Symbol} (h : g.Derives d first u)
    (k : g.Derives e second v) : g.Derives (d ++ e) (first ++ second) (u ++ v) := by
  induction h with
  | nil => exact k
  | ofTerminal ha _ ih => exact .ofTerminal ha ih
  | ofRule hm hv head _ _ ih =>
    rw [List.cons_append, List.append_assoc, List.cons_append, List.append_assoc]
    exact .ofRule hm hv head ih

/-- A derivation from two lists of symbols together divides into one from each. -/
theorem derives_append_iff {first second : List Symbol} :
    g.Derives d (first ++ second) word ↔
      ∃ d₁ d₂ u v, d = d₁ ++ d₂ ∧ word = u ++ v ∧ g.Derives d₁ first u ∧ g.Derives d₂ second v := by
  constructor
  · intro h
    induction first generalizing d word with
    | nil => exact ⟨[], d, [], word, rfl, rfl, .nil, h⟩
    | cons s first ih =>
      cases h with
      | ofTerminal ha tail =>
        obtain ⟨d₁, d₂, u, v, rfl, rfl, hu, hv⟩ := ih tail
        exact ⟨d₁, d₂, s :: u, v, rfl, rfl, .ofTerminal ha hu, hv⟩
      | @ofRule rule d e _ part word hm hvar head tail =>
        obtain ⟨d₁, d₂, u, v, rfl, rfl, hu, hv⟩ := ih tail
        refine ⟨rule :: (d ++ d₁), d₂, part ++ u, v, ?_, ?_, .ofRule hm hvar head hu, hv⟩
        · rw [List.cons_append, List.append_assoc]
        · rw [List.append_assoc]
  · rintro ⟨d₁, d₂, u, v, rfl, rfl, hu, hv⟩
    exact hu.append hv

/-- A derivation from a variable begins with a rule for it and goes on from its right-hand side. -/
theorem derives_variable_iff {s : Symbol} (hs : g.isTerminal s = false) :
    g.Derives d [s] word ↔
      ∃ rule ∈ g.rules, rule.lhs = s ∧ ∃ e, d = rule :: e ∧ g.Derives e rule.rhs word := by
  constructor
  · intro h
    cases h with
    | ofTerminal ha _ => rw [hs] at ha; exact absurd ha Bool.false_ne_true
    | @ofRule rule d e _ part word hm _ head tail =>
      cases tail
      rw [List.append_nil, List.append_nil]
      exact ⟨rule, hm, rfl, d, rfl, head⟩
  · rintro ⟨rule, hm, rfl, e, rfl, he⟩
    have h := Derives.ofRule hm hs he .nil
    rwa [List.append_nil, List.append_nil] at h

/-- A variable spells what it yields. -/
theorem yields_iff_spells {s : Symbol} (hs : g.isTerminal s = false) :
    g.Yields s word ↔ g.Spells [s] word := by
  constructor
  · rintro ⟨rule, hm, rfl, h⟩
    have h' := Spells.ofRule hm hs h .nil
    rwa [List.append_nil] at h'
  · intro h
    obtain ⟨d, hd⟩ := h.exists_derives
    obtain ⟨rule, hm, hl, e, -, he⟩ := (derives_variable_iff hs).1 hd
    exact ⟨rule, hm, hl, he.spells⟩

/-! ## Replaying -/

/-- A rule applied behind terminals leaves them in place. -/
theorem applyLeftmost_append {isTerminal : Symbol → Bool} (rule : Rule)
    (h : ∀ a ∈ word, isTerminal a = true) :
    rule.applyLeftmost isTerminal (word ++ form) =
      (rule.applyLeftmost isTerminal form).map (word ++ ·) := by
  induction word with
  | nil => simp
  | cons a word ih =>
    have ha : isTerminal a = true := h a (by simp)
    rw [List.cons_append, Rule.applyLeftmost, if_pos ha, ih fun b hb => h b (by simp [hb]),
      Option.map_map]
    rfl

/-- A derivation replayed behind terminals leaves them in place. -/
theorem replay_append_terminals {isTerminal : Symbol → Bool}
    (h : ∀ a ∈ word, isTerminal a = true) :
    Derivation.replay isTerminal d (word ++ form) =
      (Derivation.replay isTerminal d form).map (word ++ ·) := by
  induction d generalizing form with
  | nil => rfl
  | cons rule d ih =>
    rw [Derivation.replay, Derivation.replay, applyLeftmost_append rule h]
    cases rule.applyLeftmost isTerminal form with
    | none => rfl
    | some form' => exact ih

/-- Replaying a derivation turns the symbols into the word and does not touch what follows. -/
theorem Derives.replay_append (h : g.Derives d form word) (rest : List Symbol) :
    Derivation.replay g.isTerminal d (form ++ rest) = some (word ++ rest) := by
  induction h generalizing rest with
  | nil => rfl
  | @ofTerminal d a form word ha _ ih =>
    -- The first rule left belongs to a symbol behind the terminal.
    have hone : ∀ b ∈ [a], g.isTerminal b = true := by simpa using ha
    have hskip : Derivation.replay g.isTerminal d ([a] ++ (form ++ rest)) =
        (Derivation.replay g.isTerminal d (form ++ rest)).map ([a] ++ ·) :=
      replay_append_terminals hone
    rw [ih] at hskip
    exact hskip
  | @ofRule rule d e form part word _ hv head _ ihHead ihTail =>
    have happly : rule.applyLeftmost g.isTerminal (rule.lhs :: (form ++ rest)) =
        some (rule.rhs ++ (form ++ rest)) := by
      rw [Rule.applyLeftmost, if_neg (by simp [hv]), if_pos rfl]
    -- The rules below the variable finish its part of the word before any other rule is applied, so
    -- that part stands in front as terminals when the rest is replayed.
    rw [List.cons_append, Derivation.replay, happly, Option.bind_some, Derivation.replay_append,
      ihHead, Option.bind_some, replay_append_terminals head.terminals, ihTail, List.append_assoc]
    rfl

/-- A rule that is applied replaces the variable behind the terminals at the front. -/
theorem exists_of_applyLeftmost {isTerminal : Symbol → Bool} {rule : Rule} {form' : List Symbol}
    (h : rule.applyLeftmost isTerminal form = some form') :
    ∃ u rest, (∀ a ∈ u, isTerminal a = true) ∧ isTerminal rule.lhs = false ∧
      form = u ++ rule.lhs :: rest ∧ form' = u ++ (rule.rhs ++ rest) := by
  induction form generalizing form' with
  | nil => simp [Rule.applyLeftmost] at h
  | cons s form ih =>
    -- The rule passes over a terminal; at the first variable it applies or is refused.
    rw [Rule.applyLeftmost] at h
    split at h
    · next hs =>
      obtain ⟨after, hafter, rfl⟩ := Option.map_eq_some_iff.1 h
      obtain ⟨u, rest, hu, hv, rfl, rfl⟩ := ih hafter
      exact ⟨s :: u, rest, by simpa using ⟨hs, hu⟩, hv, rfl, rfl⟩
    · next hs =>
      split at h
      · next hl =>
        subst hl
        obtain rfl := Option.some.inj h
        exact ⟨[], form, by simp, by simpa using hs, rfl, rfl⟩
      · exact absurd h (by simp)

/-- Rules that are applied to the same symbols replace the same variable. -/
theorem lhs_eq_of_applyLeftmost {isTerminal : Symbol → Bool} {rule rule' : Rule}
    {after after' : List Symbol} (h : rule.applyLeftmost isTerminal form = some after)
    (h' : rule'.applyLeftmost isTerminal form = some after') : rule'.lhs = rule.lhs := by
  induction form generalizing after after' with
  | nil => simp [Rule.applyLeftmost] at h
  | cons s form ih =>
    rw [Rule.applyLeftmost] at h h'
    by_cases hs : isTerminal s = true
    · rw [if_pos hs] at h h'
      obtain ⟨rest, hrest, -⟩ := Option.map_eq_some_iff.1 h
      obtain ⟨rest', hrest', -⟩ := Option.map_eq_some_iff.1 h'
      exact ih hrest hrest'
    · rw [if_neg hs, Option.ite_none_right_eq_some] at h h'
      exact h'.1.trans h.1.symm

/-- Rules of the grammar that replay to a word of terminals derive it. -/
theorem derives_of_replay (hr : ∀ rule ∈ d, rule ∈ g.rules)
    (h : Derivation.replay g.isTerminal d form = some word)
    (hw : ∀ a ∈ word, g.isTerminal a = true) : g.Derives d form word := by
  induction d generalizing form with
  | nil =>
    obtain rfl : form = word := Option.some.inj h
    exact derives_self hw
  | cons rule d ih =>
    obtain ⟨form', happly, hrest⟩ := Option.bind_eq_some_iff.1 h
    obtain ⟨u, rest, hu, hv, rfl, rfl⟩ := exists_of_applyLeftmost happly
    have hd := ih (fun r hm => hr r (by simp [hm])) hrest
    -- The rules left derive from the terminals, the right-hand side and what follows it in turn.
    rw [derives_append_iff] at hd
    obtain ⟨d₀, d', u', word', rfl, rfl, hu', hd'⟩ := hd
    obtain ⟨d₁, d₂, part, word, rfl, rfl, hpart, hword⟩ := derives_append_iff.1 hd'
    obtain ⟨rfl, rfl⟩ := hu'.of_terminals hu
    rw [List.nil_append]
    have hrule := Derives.ofRule (hr rule (by simp)) hv hpart hword
    exact (derives_self hu).append hrule

/-- Replaying the rules and deriving with them are the same. -/
theorem leftmostDerivation_iff {s : Symbol} :
    g.LeftmostDerivation d s word ↔ g.Derives d [s] word := by
  constructor
  · rintro ⟨hr, h, hw⟩
    exact derives_of_replay hr h hw
  · intro h
    refine ⟨h.mem_rules, ?_, h.terminals⟩
    have hreplay := h.replay_append []
    rwa [List.append_nil, List.append_nil] at hreplay

end ContextFree.Grammar
