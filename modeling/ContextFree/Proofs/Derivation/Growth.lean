import ContextFree.Proofs.Derivation.Forest
import ContextFree.Proofs.Derivation.Misfit

/-!
# Growing the tree of a derivation

The tree of a derivation can be made from its first rule to its last. `Growth` keeps the nodes made
so far in a table, each with the places of the nodes below it, and the nodes that are not yet
complete on a stack. Each rule is put below the node on top of the stack, and then the nodes that
have become complete are taken off. Look-ups in the table and among the variables of a node are
checked, and it turns out that none of them ever fails: after each rule the node on top of the stack
has a variable left (`Growth.Ready`), and the table in the end is that of the tree
(`Growth.build_eq`). `Forest.ofDerivation_exact` says of every list of rules what its tree looks
like and where it fails to have one.
-/

namespace ContextFree

/-! ## Rule by rule -/

/-- A node in a table: its rule and the places of the nodes below it. -/
structure TreeNode where
  /-- The rule. -/
  rule : Rule
  /-- The places of the nodes below, in order. -/
  children : List Nat
deriving DecidableEq, Repr

/-- Puts the nodes at the given places below a node, behind those that are there. -/
def TreeNode.addChildren (places : List Nat) (node : TreeNode) : TreeNode :=
  { node with children := node.children ++ places }

@[simp] theorem TreeNode.addChildren_nil : TreeNode.addChildren [] = id := by
  funext node
  simp [addChildren]

@[simp] theorem TreeNode.addChildren_comp (first second : List Nat) :
    addChildren second ∘ addChildren first = addChildren (first ++ second) := by
  funext node
  simp [addChildren]

/-- A node with variables on its right-hand side. -/
structure OpenNode where
  /-- The place of the node. -/
  place : Nat
  /-- The variables on the right-hand side of its rule. -/
  pending : List Symbol
  /-- How many of these were replaced. -/
  next : Nat
deriving DecidableEq, Repr

/-- The variables that are still to be replaced. -/
def OpenNode.rest (node : OpenNode) : List Symbol := node.pending.drop node.next

/-- Why a tree stops growing. -/
inductive GrowthError where
  /-- The rule at the given place does not fit. -/
  | misfit (position : Nat)
  /-- A look-up went beyond the end of a list. -/
  | outOfBounds
deriving DecidableEq, Repr

/-- A tree that grows rule by rule. -/
structure Growth where
  /-- The nodes made so far. -/
  nodes : List TreeNode := []
  /-- The nodes with variables, the one whose variables come next on top. -/
  stack : List OpenNode := []
deriving DecidableEq, Repr

namespace Growth

/-- Puts the next node below the one on top of the stack, if the next variable there is the given
one. The first node of all is put below no other. -/
def attach (t : Growth) (lhs : Symbol) : Except GrowthError Growth :=
  match t.stack with
  | [] => if t.nodes.isEmpty then .ok t else .error (.misfit t.nodes.length)
  | parent :: others =>
    match parent.pending[parent.next]? with
    | none => .error .outOfBounds
    | some s =>
      if s ≠ lhs then .error (.misfit t.nodes.length)
      else if parent.place < t.nodes.length then
        .ok { nodes := t.nodes.modify parent.place (.addChildren [t.nodes.length])
              stack := { parent with next := parent.next + 1 } :: others }
      else .error .outOfBounds

/-- Makes a node for the rule, which goes on top of the stack if there are variables to replace. -/
def push (isTerminal : Symbol → Bool) (t : Growth) (rule : Rule) : Growth where
  nodes := t.nodes ++ [⟨rule, []⟩]
  stack :=
    let pending := rule.variableList isTerminal
    if pending.isEmpty then t.stack else ⟨t.nodes.length, pending, 0⟩ :: t.stack

/-- Takes the nodes without variables left off the stack, up to the first one that has some. -/
def close (t : Growth) : Growth :=
  { t with stack := t.stack.dropWhile fun node => node.next = node.pending.length }

/-- Lets the tree grow by one rule. -/
def step (isTerminal : Symbol → Bool) (t : Growth) (rule : Rule) : Except GrowthError Growth :=
  (t.attach rule.lhs).map fun t => (t.push isTerminal rule).close

/-- Lets the tree grow by the rules, one after the other, until it is complete. -/
def run (isTerminal : Symbol → Bool) : Growth → Derivation → Except GrowthError (List TreeNode)
  | t, [] =>
    if t.nodes.isEmpty || !t.stack.isEmpty then .error (.misfit t.nodes.length) else .ok t.nodes
  | t, rule :: rest =>
    match t.step isTerminal rule with
    | .error e => .error e
    | .ok t => t.run isTerminal rest

/-- The table of the tree of a complete derivation. -/
def build (isTerminal : Symbol → Bool) (d : Derivation) : Except GrowthError (List TreeNode) :=
  run isTerminal {} d

variable {isTerminal : Symbol → Bool} {t : Growth} {rule : Rule} {s : Symbol} {node : OpenNode}
  {stack : List OpenNode} {nodes : List TreeNode} {places : List Nat} {d : Derivation}

/-- All variables that are still to be replaced, the leftmost one first. -/
def pending (t : Growth) : List Symbol := t.stack.flatMap OpenNode.rest

/-- The table with the nodes at the given places put below the nodes of a stack, one for each
variable that is still to be replaced. -/
def graft : (stack : List OpenNode) → List TreeNode → List Nat → List TreeNode
  | [], nodes, _ => nodes
  | node :: stack, nodes, places =>
    graft stack (nodes.modify node.place (.addChildren (places.take node.rest.length)))
      (places.drop node.rest.length)

/-- The nodes of the stack are in the table, and no more of their variables were replaced than they
have. -/
structure Bounded (t : Growth) : Prop where
  /-- The places are those of nodes in the table. -/
  place : ∀ node ∈ t.stack, node.place < t.nodes.length
  /-- The variables replaced are among those of the node. -/
  next : ∀ node ∈ t.stack, node.next ≤ node.pending.length

/-- What holds of a growing tree after each rule. Below the top of the stack there may be nodes
without variables left, which wait for the nodes above them. -/
structure Ready (t : Growth) : Prop extends Bounded t where
  /-- There is a node. -/
  started : t.nodes ≠ []
  /-- The node on top of the stack has a variable left. -/
  top : ∀ node ∈ t.stack.head?, node.next < node.pending.length

/-- A node without variables left takes no more nodes. -/
theorem graft_cons_of_rest (h : node.rest = []) :
    graft (node :: stack) nodes places = graft stack nodes places := by
  simp [graft, h]

/-- The last node of the table stays the last one, and is left as it is if it is not on the stack.
-/
theorem graft_concat {last : TreeNode} (h : ∀ node ∈ stack, node.place < nodes.length) :
    graft stack (nodes ++ [last]) places = graft stack nodes places ++ [last] := by
  induction stack generalizing nodes places with
  | nil => rfl
  | cons node stack ih =>
    obtain ⟨hnode, hstack⟩ := List.forall_mem_cons.1 h
    have hmodify : ∀ f, (nodes ++ [last]).modify node.place f =
        nodes.modify node.place f ++ [last] := by
      intro f
      apply List.ext_getElem?
      grind
    rw [graft, graft, hmodify, ih (by simpa using hstack)]

/-- Taking nodes off the stack changes neither the variables left nor the table. -/
theorem pending_and_graft_close (t : Growth) :
    t.close.pending = t.pending ∧ graft t.close.stack = graft t.stack := by
  obtain ⟨nodes, stack⟩ := t
  unfold close pending
  dsimp only
  induction stack with
  | nil => exact ⟨rfl, rfl⟩
  | cons node stack ih =>
    rw [List.dropWhile_cons]
    split
    · next hdone =>
      have hrest : node.rest = [] := by
        rw [OpenNode.rest, of_decide_eq_true hdone, List.drop_length]
      refine ⟨?_, ?_⟩
      · rw [ih.1, List.flatMap_cons, hrest, List.nil_append]
      · rw [ih.2]
        funext nodes places
        exact (graft_cons_of_rest hrest).symm
    · exact ⟨rfl, rfl⟩

/-- Taking nodes without variables left off the stack makes the tree ready for the next rule. -/
theorem Bounded.close (h : t.Bounded) (hne : t.nodes ≠ []) : t.close.Ready where
  place node hmem := h.place node ((List.dropWhile_sublist _).subset hmem)
  next node hmem := h.next node ((List.dropWhile_sublist _).subset hmem)
  started := hne
  top node hnode := by
    have hhead := List.head?_dropWhile_not (fun node => decide (node.next = node.pending.length))
      t.stack
    have hmem : node ∈ t.stack := (List.dropWhile_sublist _).subset (List.mem_of_mem_head? hnode)
    have htop : (t.stack.dropWhile fun node => node.next = node.pending.length).head? =
        some node := hnode
    rw [htop] at hhead
    exact Nat.lt_of_le_of_ne (h.next node hmem) (of_decide_eq_false hhead)

/-- A new node has its variables in front of those that were left before. -/
theorem pending_push (t : Growth) (rule : Rule) :
    (t.push isTerminal rule).pending = rule.variableList isTerminal ++ t.pending := by
  unfold push pending
  dsimp only
  split
  · next hnil => rw [List.isEmpty_iff.1 hnil, List.nil_append]
  · rfl

/-- A new node stands last in the table, and the first nodes that follow are put below it. -/
theorem Bounded.graft_push (h : t.Bounded) (rule : Rule) (places : List Nat) :
    graft (t.push isTerminal rule).stack (t.push isTerminal rule).nodes places =
      graft t.stack t.nodes (places.drop (rule.variableList isTerminal).length) ++
        [⟨rule, places.take (rule.variableList isTerminal).length⟩] := by
  rw [← graft_concat h.place]
  unfold push
  dsimp only
  split
  · next hnil => rw [List.isEmpty_iff.1 hnil, List.length_nil, List.drop_zero, List.take_zero]
  · have hmodify : ∀ f, (t.nodes ++ [(⟨rule, []⟩ : TreeNode)]).modify t.nodes.length f =
        t.nodes ++ [f ⟨rule, []⟩] := by
      intro f
      apply List.ext_getElem?
      grind
    rw [graft, hmodify]
    rfl

theorem Bounded.push (h : t.Bounded) (rule : Rule) : (t.push isTerminal rule).Bounded := by
  have hpush : ∀ node ∈ (t.push isTerminal rule).stack,
      node ∈ t.stack ∨ node = ⟨t.nodes.length, rule.variableList isTerminal, 0⟩ := by
    intro node hmem
    unfold Growth.push at hmem
    dsimp only at hmem
    split at hmem
    · exact .inl hmem
    · exact (List.mem_cons.1 hmem).symm
  have hlength : (t.push isTerminal rule).nodes.length = t.nodes.length + 1 := by
    simp [Growth.push]
  refine ⟨fun node hmem => ?_, fun node hmem => ?_⟩
  · rw [hlength]
    rcases hpush node hmem with hmem | rfl
    · exact Nat.lt_succ_of_lt (h.place node hmem)
    · exact Nat.lt_succ_self _
  · rcases hpush node hmem with hmem | rfl
    · exact h.next node hmem
    · exact Nat.zero_le _

/-- A new node is added to a growing tree, and the nodes that have become complete are taken off the
stack. -/
theorem Bounded.push_close (h : t.Bounded) (isTerminal : Symbol → Bool) (rule : Rule) :
    (t.push isTerminal rule).close.Ready ∧
      (t.push isTerminal rule).close.pending = rule.variableList isTerminal ++ t.pending ∧
      ∀ places, graft (t.push isTerminal rule).close.stack (t.push isTerminal rule).close.nodes
          places =
        graft t.stack t.nodes (places.drop (rule.variableList isTerminal).length) ++
          [⟨rule, places.take (rule.variableList isTerminal).length⟩] := by
  obtain ⟨hpending, hgraft⟩ := pending_and_graft_close (t.push isTerminal rule)
  refine ⟨(h.push rule).close (by simp [Growth.push]), ?_, fun places => ?_⟩
  · rw [hpending, pending_push]
  · rw [hgraft]
    exact h.graft_push rule places

/-- The next variable is the first one that the node on top of the stack has left. -/
theorem Ready.exists_top (h : t.Ready) {left : List Symbol} (hp : t.pending = s :: left) :
    ∃ parent others, t.stack = parent :: others ∧ parent.pending[parent.next]? = some s ∧
      left = parent.pending.drop (parent.next + 1) ++ others.flatMap OpenNode.rest := by
  cases hstack : t.stack with
  | nil =>
    rw [pending, hstack] at hp
    exact absurd hp (by simp)
  | cons parent others =>
    have hnext : parent.next < parent.pending.length := h.top parent (by simp [hstack])
    rw [pending, hstack, List.flatMap_cons, OpenNode.rest, List.drop_eq_getElem_cons hnext,
      List.cons_append] at hp
    obtain ⟨hs, hleft⟩ := List.cons.inj hp
    refine ⟨parent, others, rfl, ?_, hleft.symm⟩
    rw [List.getElem?_eq_getElem hnext, hs]

/-- A node for the next variable is put below the node on top of the stack. -/
theorem Ready.exists_attach (h : t.Ready) {left : List Symbol} (hp : t.pending = s :: left) :
    ∃ t', t.attach s = .ok t' ∧ t'.Bounded ∧ t'.nodes.length = t.nodes.length ∧
      t'.pending = left ∧
      ∀ places, graft t'.stack t'.nodes places =
        graft t.stack t.nodes (t.nodes.length :: places) := by
  obtain ⟨parent, others, hstack, hget, rfl⟩ := h.exists_top hp
  have hplace := h.place parent (by simp [hstack])
  have hnext := (List.getElem?_eq_some_iff.1 hget).1
  refine ⟨⟨t.nodes.modify parent.place (.addChildren [t.nodes.length]),
    { parent with next := parent.next + 1 } :: others⟩, ?_, ⟨?_, ?_⟩, ?_, rfl, fun places => ?_⟩
  · rw [attach, hstack]
    dsimp only
    rw [hget]
    dsimp only
    rw [if_neg (by simp), if_pos hplace]
  · have hothers : ∀ node ∈ others, node.place < t.nodes.length := fun node hmem =>
      h.place node (by simp [hstack, hmem])
    simpa using ⟨hplace, hothers⟩
  · have hothers : ∀ node ∈ others, node.next ≤ node.pending.length := fun node hmem =>
      h.next node (by simp [hstack, hmem])
    simpa using ⟨hnext, hothers⟩
  · rw [List.length_modify]
  · have hrest : parent.rest.length = (parent.pending.drop (parent.next + 1)).length + 1 := by
      rw [OpenNode.rest, List.drop_eq_getElem_cons hnext, List.length_cons]
    rw [hstack, graft, graft, hrest, List.take_succ_cons, List.drop_succ_cons,
      List.modify_modify_eq, TreeNode.addChildren_comp]
    rfl

/-- A tree grows by a rule for the next variable. -/
theorem Ready.exists_step (h : t.Ready) {left : List Symbol} (hp : t.pending = rule.lhs :: left) :
    ∃ t', t.step isTerminal rule = .ok t' ∧ t'.Ready ∧ t'.nodes.length = t.nodes.length + 1 ∧
      t'.pending = rule.variableList isTerminal ++ left ∧
      ∀ places, graft t'.stack t'.nodes places =
        graft t.stack t.nodes
            (t.nodes.length :: places.drop (rule.variableList isTerminal).length) ++
          [⟨rule, places.take (rule.variableList isTerminal).length⟩] := by
  obtain ⟨between, hattach, hbounded, hlength, hleft, hgraft⟩ := h.exists_attach hp
  obtain ⟨hready, hpending, hpush⟩ := hbounded.push_close isTerminal rule
  refine ⟨_, ?_, hready, ?_, by rw [hpending, hleft], fun places => by rw [hpush, hgraft]⟩
  · rw [step, hattach]
    rfl
  · simp [close, push, hlength]

/-- Without variables left, no node is on the stack. -/
theorem Ready.stack_eq_nil (h : t.Ready) (hp : t.pending = []) : t.stack = [] := by
  cases hstack : t.stack with
  | nil => rfl
  | cons parent others =>
    have hnext : parent.next < parent.pending.length := h.top parent (by simp [hstack])
    rw [pending, hstack, List.flatMap_cons, List.append_eq_nil_iff, OpenNode.rest,
      List.drop_eq_nil_iff] at hp
    exact absurd hnext (Nat.not_lt.2 hp.1)

/-- A rule for another variable than the next one does not fit. -/
theorem Ready.attach_of_ne (h : t.Ready) (hp : t.pending.head? ≠ some s) :
    t.attach s = .error (.misfit t.nodes.length) := by
  unfold attach
  cases hpending : t.pending with
  | nil =>
    rw [h.stack_eq_nil hpending]
    dsimp only
    rw [if_neg]
    simpa using h.started
  | cons other left =>
    obtain ⟨parent, others, hstack, hget, -⟩ := h.exists_top hpending
    rw [hstack]
    dsimp only
    rw [hget]
    dsimp only
    rw [if_pos]
    rintro rfl
    exact hp (by rw [hpending]; rfl)

end Growth

/-! ## The table of the tree -/

namespace Forest

/-- The nodes in pre-order, each with the places of the nodes below it. -/
def table (forest : Forest) : List TreeNode :=
  forest.preorder fun _ rule children => ⟨rule, children.tops.map (·.2)⟩

/-- The nodes of the table carry the rules of the forest, in order. -/
theorem map_rule_table (forest : Forest) : forest.table.map (·.rule) = forest.rules := by
  induction forest with
  | nil => rfl
  | cons index rule children siblings ihChildren ihSiblings =>
    rw [table, preorder, rules, List.map_cons, List.map_append, ← ihChildren, ← ihSiblings]
    rfl

/-- A rule has the first nodes that follow below it, one for each of its variables. -/
theorem table_ofRules_cons (isTerminal : Symbol → Bool) (index : Nat) (rule : Rule)
    (d : Derivation) :
    (ofRules isTerminal index (rule :: d)).table =
      ⟨rule, ((ofRules isTerminal (index + 1) d).tops.map (·.2)).take
        (rule.variableList isTerminal).length⟩ :: (ofRules isTerminal (index + 1) d).table := by
  rw [table, ofRules, preorder, (tops_splitAt _ _).1, preorder_splitAt, List.map_take]
  rfl

theorem tops_ofRules_cons (isTerminal : Symbol → Bool) (index : Nat) (rule : Rule)
    (d : Derivation) :
    (ofRules isTerminal index (rule :: d)).tops =
      (rule, index) :: (ofRules isTerminal (index + 1) d).tops.drop
        (rule.variableList isTerminal).length := by
  rw [ofRules, tops, (tops_splitAt _ _).2]

end Forest

namespace Growth

variable {t : Growth}

/-- A tree grows by the rules until the first one that does not fit, and if all of them do, the
nodes that they make are put below those that were there. No look-up fails on the way. -/
theorem Ready.run_eq (h : t.Ready) (isTerminal : Symbol → Bool) (d : Derivation) :
    t.run isTerminal d =
      match Derivation.misfitFrom isTerminal t.nodes.length t.pending d with
      | some position => .error (.misfit position)
      | none =>
        .ok (graft t.stack t.nodes ((Forest.ofRules isTerminal t.nodes.length d).tops.map (·.2)) ++
          (Forest.ofRules isTerminal t.nodes.length d).table) := by
  induction d generalizing t with
  | nil =>
    unfold run
    cases hpending : t.pending with
    | nil =>
      simp [h.stack_eq_nil hpending, h.started, graft, Forest.ofRules, Forest.table,
        Forest.preorder, Derivation.misfitFrom]
    | cons s left =>
      obtain ⟨parent, others, hstack, -⟩ := h.exists_top hpending
      simp [hstack, Derivation.misfitFrom]
  | cons rule d ih =>
    unfold run
    by_cases hhead : t.pending.head? = some rule.lhs
    · obtain ⟨left, hpending⟩ := List.head?_eq_some_iff.1 hhead
      obtain ⟨t', hstep, hready, hlength, hleft, hgraft⟩ := h.exists_step hpending
      rw [hstep, hpending, Derivation.misfitFrom, if_pos rfl]
      dsimp only
      rw [ih hready, hlength, hleft, hgraft, Forest.table_ofRules_cons, Forest.tops_ofRules_cons,
        List.map_cons, List.map_drop, List.append_assoc]
      rfl
    · have hstep : t.step isTerminal rule = .error (.misfit t.nodes.length) := by
        rw [step, h.attach_of_ne hhead]
        rfl
      rw [hstep, Derivation.misfitFrom_cons_of_ne hhead]

/-- The table of a tree that grows rule by rule is that of the tree of the derivation, and growth
ends where the rules do not fit. No look-up ever fails. -/
theorem build_eq (isTerminal : Symbol → Bool) (d : Derivation) :
    build isTerminal d =
      match Forest.ofDerivation isTerminal d with
      | .ok forest => .ok forest.table
      | .error position => .error (.misfit position) := by
  cases d with
  | nil => rfl
  | cons rule d =>
    have hempty : ({} : Growth).Bounded := ⟨by simp, by simp⟩
    obtain ⟨hready, hpending, hgraft⟩ := hempty.push_close isTerminal rule
    have hrun := hready.run_eq isTerminal d
    have hlength : (({} : Growth).push isTerminal rule).close.nodes.length = 1 := rfl
    have hnone : ({} : Growth).pending = [] := rfl
    rw [hpending, hgraft, hlength, hnone] at hrun
    rw [build, run]
    show run isTerminal (({} : Growth).push isTerminal rule).close d = _
    rw [hrun, Forest.ofDerivation, Derivation.misfit?, Derivation.misfitFrom, if_pos rfl]
    cases Derivation.misfitFrom isTerminal (0 + 1) (rule.variableList isTerminal ++ []) d with
    | some position => rfl
    | none =>
      dsimp only
      rw [Forest.table_ofRules_cons]
      rfl

end Growth

/-! ## Every list of rules -/

/-- The tree of a list of rules is built exactly when the list is a complete derivation from the
left-hand side of its first rule. It is then a single tree, its nodes in pre-order carry the rules
one after the other, numbered from zero, and below each node there are trees for the variables on
the right-hand side of its rule, in order. Otherwise the place is reported where the rules fail to
be such a derivation, and there is only one such place. A tree that grows rule by rule, with checked
look-ups in its table of nodes and among the variables of the node on top of its stack, has the same
nodes or stops at the same place. -/
theorem Forest.ofDerivation_exact (isTerminal : Symbol → Bool) (d : Derivation) :
    (Derivation.Complete isTerminal d ∧
        ∃ forest, ofDerivation isTerminal d = .ok forest ∧ forest.length = 1 ∧
          forest.entries = d.zipIdx ∧ forest.Branches isTerminal ∧
          Growth.build isTerminal d = .ok forest.table ∧ forest.table.map (·.rule) = d) ∨
      (¬Derivation.Complete isTerminal d ∧
        ∃ position, ofDerivation isTerminal d = .error position ∧
          (∀ i, Derivation.Misfit isTerminal d i ↔ i = position) ∧
          Growth.build isTerminal d = .error (.misfit position)) := by
  have hbuild := Growth.build_eq isTerminal d
  cases hmisfit : Derivation.misfit? isTerminal d with
  | none =>
    have hok : ofDerivation isTerminal d = .ok (ofRules isTerminal 0 d) := by
      rw [ofDerivation, hmisfit]
    rw [hok] at hbuild
    cases d with
    | nil => exact absurd hmisfit (by simp [Derivation.misfit?])
    | cons rule d =>
      obtain ⟨htops, hbranches⟩ := branches_ofRules hmisfit 0
      refine .inl ⟨Derivation.misfit?_eq_none_iff.1 hmisfit, _, hok, ?_,
        entries_ofRules isTerminal 0 _, hbranches, hbuild, ?_⟩
      · rw [← length_tops, ← List.length_map, htops]
        rfl
      · rw [map_rule_table, rules_ofRules]
  | some position =>
    have herror : ofDerivation isTerminal d = .error position := by
      rw [ofDerivation, hmisfit]
    rw [herror] at hbuild
    refine .inr ⟨?_, position, herror, fun i => ?_, hbuild⟩
    · rw [← Derivation.misfit?_eq_none_iff, hmisfit]
      simp
    · rw [← Derivation.misfit?_eq_some_iff, hmisfit, Option.some.injEq, eq_comm]

end ContextFree
