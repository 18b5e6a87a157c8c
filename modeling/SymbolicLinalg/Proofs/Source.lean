import SymbolicLinalg.Node.Tree
import SymbolicLinalg.Proofs.Emission

/-!
# Source — rendering by recursion over trees

The distinct nodes of a graph are rendered one after the other, over a table that several outputs
of a kernel share.  What this comes to is said without nodes and tables, by recursion over the tree
of an expression.

* `Tree.source`: the text of a tree, or the error of the first operator without a renderer;
* `Node.findSome?_postOrder`: a search through the distinct nodes of a graph finds what a search
  from left to right through its tree finds first;
* `render_and_emit_agree`: rendering comes to the text of the tree, and a kernel is given up with
  the error of the first output that cannot be rendered.
-/

namespace SymbolicLinalg

variable {K : Type}

/-! ## Searches -/

namespace Node

variable {β : Type}

mutual

/-- The first answer of a search that goes from left to right, operands first. -/
def first? (f : Node K → Option β) (n : Node K) : Option β :=
  match n with
  | .constant id value => f (.constant id value)
  | .leaf id name shape => f (.leaf id name shape)
  | .application id operator operands =>
      (firstOf? f operands).or (f (.application id operator operands))

def firstOf? (f : Node K → Option β) (nodes : List (Node K)) : Option β :=
  match nodes with
  | [] => none
  | n :: rest => (first? f n).or (firstOf? f rest)

end

variable {f : Node K → Option β} {n : Node K}

theorem firstOf?_eq_findSome? (nodes : List (Node K)) :
    firstOf? f nodes = nodes.findSome? (first? f) := by
  induction nodes with
  | nil => rw [firstOf?, List.findSome?_nil]
  | cons n rest ih =>
      rw [firstOf?, ih, List.findSome?_cons]
      cases first? f n <;> rfl

theorem first?_application (id : NodeId) (s : Signature) (operands : List (Node K)) :
    (application id s operands).first? f =
      (operands.findSome? (first? f)).or (f (.application id s operands)) := by
  rw [first?, firstOf?_eq_findSome?]

/-- A search without an answer has met every node of the graph. -/
theorem first?_eq_none : n.first? f = none ↔ ∀ x, n.Reaches x → f x = none := by
  induction n using induct with
  | constant | leaf =>
      rw [first?]
      refine ⟨fun none x below => ?_, fun h => h _ (.refl _)⟩
      rw [below.eq_of_operands_eq_nil rfl, none]
  | application id s operands ih =>
      rw [first?_application, Option.or_eq_none_iff, List.findSome?_eq_none_iff]
      constructor
      · rintro ⟨parts, whole⟩ x below
        rcases reaches_iff.1 below with rfl | ⟨m, hm, below⟩
        · exact whole
        · exact (ih m hm).1 (parts m hm) x below
      · intro h
        exact ⟨fun m hm => (ih m hm).2 fun x below => h x (.step hm below), h _ (.refl _)⟩

/-- Passing over nodes that have been met loses no answer. -/
theorem first?_of_listed {l : Listing K} (sorted : UsersFirst l.listed) (hn : n ∈ l.listed) :
    l.toList.findSome? f = (l.toList.findSome? f).or (n.first? f) := by
  cases found : l.toList.findSome? f with
  | some => rfl
  | none =>
      rw [Option.none_or, Eq.comm, first?_eq_none]
      intro x below
      refine List.findSome?_eq_none_iff.1 found x ?_
      exact List.mem_reverse.2 (sorted.reaches_mem hn below)

theorem findSome?_push (l : Listing K) (n : Node K) :
    (l.push n).toList.findSome? f = (l.toList.findSome? f).or (f n) := by
  rw [Listing.toList_push, List.findSome?_append, List.findSome?_cons, List.findSome?_nil]
  cases f n <;> rfl

section

variable {e : Node K} (coherent : Coherent [e])

include coherent

theorem findSome?_visitAll {nodes : List (Node K)} (below : ∀ n ∈ nodes, e.Reaches n)
    (each : ∀ n ∈ nodes, ∀ l, Walked e l →
      (visit l n).toList.findSome? f = (l.toList.findSome? f).or (n.first? f))
    {l : Listing K} (h : Walked e l) :
    (visitAll l nodes).toList.findSome? f =
      (l.toList.findSome? f).or (nodes.findSome? (first? f)) := by
  induction nodes generalizing l with
  | nil => rw [visitAll, List.findSome?_nil, Option.or_none]
  | cons n rest ih =>
      rw [List.forall_mem_cons] at below each
      have walked := (lists_visit coherent below.1 l h).walked
      rw [visitAll, ih below.2 each.2 walked, each.1 l h, List.findSome?_cons, Option.or_assoc]
      cases n.first? f <;> rfl

theorem findSome?_visit (below : e.Reaches n) (l : Listing K) (h : Walked e l) :
    (visit l n).toList.findSome? f = (l.toList.findSome? f).or (n.first? f) := by
  induction n using induct generalizing l with
  | constant id v =>
      rw [visit]
      split
      · rename_i seen
        exact first?_of_listed h.sorted (h.mem_of_seen coherent below seen)
      · rw [findSome?_push, first?]
  | leaf id name s =>
      rw [visit]
      split
      · rename_i seen
        exact first?_of_listed h.sorted (h.mem_of_seen coherent below seen)
      · rw [findSome?_push, first?]
  | application id s operands ih =>
      rw [visit]
      split
      · rename_i seen
        exact first?_of_listed h.sorted (h.mem_of_seen coherent below seen)
      · have inside (m : Node K) (hm : m ∈ operands) : e.Reaches m :=
          below.trans (.of_mem_operands hm)
        rw [findSome?_push, first?_application,
          findSome?_visitAll coherent inside (fun m hm l' h' => ih m hm (inside m hm) l' h') h,
          Option.or_assoc]

/-- The first answer in the post-order is the first one in the tree. -/
theorem findSome?_postOrder : e.postOrder.findSome? f = e.first? f := by
  rw [postOrder, findSome?_visit coherent (.refl e) .empty (.empty e), Listing.toList_empty,
    List.findSome?_nil, Option.none_or]

end

end Node

namespace Kernel

variable {β : Type} {f : Node K → Option β}

theorem findSome?_filter {nodes : List (Node K)} {fresh : Node K → Bool}
    (passed : ∀ n ∈ nodes, fresh n = false → f n = none) :
    (nodes.filter fresh).findSome? f = nodes.findSome? f := by
  induction nodes with
  | nil => rfl
  | cons n rest ih =>
      rw [List.forall_mem_cons] at passed
      cases new : fresh n with
      | true =>
          rw [List.filter_cons_of_pos new, List.findSome?_cons, List.findSome?_cons, ih passed.2]
      | false =>
          rw [List.filter_cons_of_neg (by simp [new]), ih passed.2, List.findSome?_cons,
            passed.1 new]

/-- The nodes for one output bring up the first answer in its graph, unless there was one before. -/
theorem findSome?_block {roots done : List (Node K)} {seen : Std.HashSet NodeId} {root : Node K}
    (h : Planned roots seen done) (coherent : Node.Coherent roots) (hroot : root ∈ roots) :
    (done ++ root.postOrder.filter fun n => !seen.contains n.id).findSome? f =
      (done.findSome? f).or (root.first? f) := by
  have alone : Node.Coherent [root] := coherent.of_subset (by simpa using hroot)
  rw [List.findSome?_append]
  cases found : done.findSome? f with
  | some => rfl
  | none =>
      rw [Option.none_or, Option.none_or, ← Node.findSome?_postOrder alone]
      refine findSome?_filter fun n hn listed => List.findSome?_eq_none_iff.1 found n ?_
      rcases (h.tracks n.id).1 (by simpa using listed) with ⟨m, hm, same⟩
      have below : Node.Below roots n := ⟨root, hroot, (Node.mem_postOrder_iff alone).1 hn⟩
      rwa [← coherent.eq_of_id_eq (h.below m hm) below same]

theorem findSome?_blocks {roots done : List (Node K)} {seen : Std.HashSet NodeId}
    {outputs : List (String × Node K)} (h : Planned roots seen done)
    (coherent : Node.Coherent roots) (among : ∀ o ∈ outputs, o.2 ∈ roots) :
    (done ++ (blocksFrom seen outputs).flatMap Block.nodes).findSome? f =
      (done.findSome? f).or (outputs.findSome? fun o => o.2.first? f) := by
  induction outputs generalizing seen done with
  | nil => rw [blocksFrom, List.flatMap_nil, List.append_nil, List.findSome?_nil, Option.or_none]
  | cons output rest ih =>
      rcases output with ⟨name, root⟩
      rw [List.forall_mem_cons] at among
      have next := (h.block coherent among.1).1
      rw [blocksFrom, List.flatMap_cons, ← List.append_assoc, ih next among.2,
        findSome?_block h coherent among.1, Option.or_assoc, List.findSome?_cons]
      cases root.first? f <;> rfl

/-- The first answer in the plan of a kernel is the first one in its outputs. -/
theorem findSome?_planned {k : Kernel K} (coherent : Node.Coherent k.roots) :
    k.planned.findSome? f = k.outputs.findSome? fun o => o.2.first? f :=
  findSome?_blocks (.nothing k.roots) coherent fun _ ho => List.mem_map_of_mem ho

end Kernel

theorem missing?_postOrder {r : Registry K} {target : Target} {n : Node K}
    (coherent : Node.Coherent [n]) :
    r.missing? target n.postOrder = n.first? (r.missingAt? target) :=
  Node.findSome?_postOrder coherent

/-! ## The text of a tree -/

section

variable [Arithmetic K] [Numeral K] {r : Registry K} {target : Target} {n : Node K}

namespace Tree

mutual

/-- The text of an expression, or the error of the first operator that has no renderer. -/
def source (r : Registry K) (target : Target) (t : Tree K) : Except Error String :=
  match t with
  | .constant value => .ok (target.literal value)
  | .leaf _ name _ => .ok name
  | .application s operands => do
      let items ← sources r target operands
      match (r.hooks s).render target with
      | some renderer => return renderer items
      | none => throw (.missingRenderer s target.name)

def sources (r : Registry K) (target : Target) (trees : List (Tree K)) :
    Except Error (List String) :=
  match trees with
  | [] => return []
  | t :: rest => do
      let first ← t.source r target
      let others ← sources r target rest
      return first :: others

end

end Tree

/-- The outcome of rendering: what there is to render, unless a renderer is missing. -/
def Target.outcome {α : Type} (target : Target) (missing : Option Signature) (a : α) :
    Except Error α :=
  match missing with
  | none => .ok a
  | some s => .error (.missingRenderer s target.name)

theorem source_trees {nodes : List (Node K)}
    (each : ∀ n ∈ nodes, n.tree.source r target =
      target.outcome (n.first? (r.missingAt? target)) (r.code target n)) :
    Tree.sources r target (nodes.map Node.tree) =
      target.outcome (nodes.findSome? (Node.first? (r.missingAt? target)))
        (nodes.map (r.code target)) := by
  induction nodes with
  | nil => rw [List.map_nil, Tree.sources]; rfl
  | cons n rest ih =>
      rw [List.forall_mem_cons] at each
      rw [List.map_cons, Tree.sources, each.1, ih each.2, List.findSome?_cons]
      cases n.first? (r.missingAt? target) with
      | some => rfl
      | none => cases rest.findSome? (Node.first? (r.missingAt? target)) <;> rfl

/-- The tree of an expression has its code as text, unless the search for an operator without a
renderer finds one. -/
theorem source_tree (n : Node K) :
    n.tree.source r target =
      target.outcome (n.first? (r.missingAt? target)) (r.code target n) := by
  induction n using Node.induct with
  | constant id v =>
      rw [Node.tree, Tree.source, Node.first?, Registry.code, Node.body, Form.code]
      rfl
  | leaf id name s =>
      rw [Node.tree, Tree.source, Node.first?, Registry.code, Node.body, Form.code]
      rfl
  | application id s operands ih =>
      rw [Node.tree_application, Tree.source, source_trees ih, Node.first?_application,
        Registry.code_application, Registry.renderer]
      cases operands.findSome? (Node.first? (r.missingAt? target)) with
      | some => rfl
      | none =>
          rw [Registry.missingAt?, Node.operator?, Option.filter_some, Option.none_or]
          cases (r.hooks s).render target <;> rfl

/-! ## Rendering -/

theorem render_eq_outcome (coherent : Node.Coherent [n]) :
    r.render target n = (target.outcome (n.first? (r.missingAt? target))
      (r.code target n)).mapError .error := by
  have sorted : Node.UsersFirst ([] ++ n.postOrder).reverse := Node.usersFirst_postOrder coherent
  rw [← missing?_postOrder coherent]
  cases first : r.missing? target n.postOrder with
  | some s => exact lastText_eq_error sorted (by simp) first ""
  | none =>
      refine render_eq_code coherent fun id s operands below => ?_
      have hn := (Node.mem_postOrder_iff coherent).2 below
      exact Registry.missing?_eq_none.1 first _ hn s rfl

/-- An expression is rendered if a search finds no operator without a renderer. -/
theorem render_succeeds (coherent : Node.Coherent [n]) :
    (∃ text, r.render target n = .ok text) ↔ n.first? (r.missingAt? target) = none := by
  rw [render_eq_outcome coherent]
  cases n.first? (r.missingAt? target) with
  | none => exact ⟨fun _ => rfl, fun _ => ⟨_, rfl⟩⟩
  | some s => exact ⟨fun ⟨_, run⟩ => absurd run nofun, nofun⟩

/-- The one error there is, is that of the operator that a search finds. -/
theorem render_error (coherent : Node.Coherent [n]) {f : Fault} :
    r.render target n = .error f ↔ ∃ s, n.first? (r.missingAt? target) = some s ∧
      f = .error (.missingRenderer s target.name) := by
  rw [render_eq_outcome coherent]
  cases n.first? (r.missingAt? target) with
  | none => exact ⟨nofun, fun ⟨_, found, _⟩ => absurd found nofun⟩
  | some s =>
      constructor
      · intro run
        exact ⟨s, rfl, (Except.error.inj run).symm⟩
      · rintro ⟨_, ⟨⟩, rfl⟩
        rfl

/-- What rendering an expression comes to. -/
structure RendersAsTree (r : Registry K) (target : Target) (n : Node K) : Prop where
  succeeds : (∃ text, r.render target n = .ok text) ↔ n.AppliesOnly (r.Renders target)
  text : r.render target n = (n.tree.source r target).mapError .error
  /-- The error is that of the first application without a renderer. -/
  reports : ∀ f, r.render target n = .error f → ∃ before id s operands after,
    n.postOrder = before ++ .application id s operands :: after ∧ ¬ r.Renders target s ∧
      (∀ m ∈ before, ∀ t, m.operator? = some t → r.Renders target t) ∧
      f = .error (.missingRenderer s target.name)
  /-- Every text that is looked up is there. -/
  complete : ∀ id, r.render target n ≠ .error (.unrendered id)

theorem render_as_tree (r : Registry K) (target : Target) (coherent : Node.Coherent [n]) :
    RendersAsTree r target n where
  succeeds := by
    rw [render_succeeds coherent, Node.first?_eq_none]
    constructor
    · exact fun none id s operands below => Registry.missingAt?_eq_none.1 (none _ below) s rfl
    · intro renders x below
      refine Registry.missingAt?_eq_none.2 fun s applied => ?_
      cases x with
      | constant | leaf => exact absurd applied nofun
      | application id t operands =>
          obtain rfl := Option.some.inj applied
          exact renders id t operands below
  text := by rw [render_eq_outcome coherent, source_tree]
  reports f run := by
    rcases (render_error coherent).1 run with ⟨s, found, rfl⟩
    rw [← missing?_postOrder coherent] at found
    rcases Registry.missing?_eq_some.1 found with
      ⟨before, id, operands, after, split, missing, renders⟩
    exact ⟨before, id, s, operands, after, split, missing, renders, rfl⟩
  complete id run := by
    rcases (render_error coherent).1 run with ⟨_, _, same⟩
    exact absurd same nofun

/-! ## Kernels -/

namespace Kernel

variable {k : Kernel K}

/-- What emitting a kernel comes to, in terms of rendering its outputs. -/
structure EmitsAsRendered (r : Registry K) (target : Target) (k : Kernel K) : Prop where
  succeeds : (k.emit r target).1 = .ok () ↔
    ∀ o ∈ k.outputs, ∃ text, r.render target o.2 = .ok text
  /-- The error is that of the first output that cannot be rendered. -/
  reports : ∀ f, (k.emit r target).1 = .error f → ∃ before name root after,
    k.outputs = before ++ (name, root) :: after ∧ r.render target root = .error f ∧
      ∀ o ∈ before, ∃ text, r.render target o.2 = .ok text
  /-- Every text that is looked up is there. -/
  complete : ∀ id, (k.emit r target).1 ≠ .error (.unrendered id)

theorem emit_as_rendered (r : Registry K) (target : Target) (coherent : Node.Coherent k.roots) :
    EmitsAsRendered r target k := by
  have alone (o : String × Node K) (ho : o ∈ k.outputs) : Node.Coherent [o.2] :=
    coherent.of_subset (List.cons_subset.2 ⟨List.mem_map_of_mem ho, List.nil_subset _⟩)
  have searched : r.missing? target k.planned =
      k.outputs.findSome? fun o => o.2.first? (r.missingAt? target) := findSome?_planned coherent
  have settles := emit_settles r target coherent
  revert settles
  rcases run : k.emit r target with ⟨f | _, e⟩
  · rintro ⟨s, first, rfl⟩
    rw [searched, List.findSome?_eq_some_iff] at first
    rcases first with ⟨before, ⟨name, root⟩, after, split, found, earlier⟩
    have hroot : (name, root) ∈ k.outputs := split ▸ List.mem_append_right before List.mem_cons_self
    have fails := (render_error (alone _ hroot)).2 ⟨s, found, rfl⟩
    constructor
    case succeeds =>
      rw [run]
      refine ⟨nofun, fun all => ?_⟩
      rcases all _ hroot with ⟨text, ok⟩
      exact absurd (fails.symm.trans ok) nofun
    case reports =>
      rw [run]
      rintro _ ⟨⟩
      refine ⟨before, name, root, after, split, fails, fun o ho => ?_⟩
      have listed : o ∈ k.outputs := split ▸ List.mem_append_left _ ho
      exact (render_succeeds (alone o listed)).2 (earlier o ho)
    case complete =>
      rw [run]
      exact fun _ => nofun
  · rintro ⟨lines, written⟩
    rw [Registry.missing?_eq_none.2 written.renders, Eq.comm,
      List.findSome?_eq_none_iff] at searched
    constructor
    case succeeds =>
      rw [run]
      exact ⟨fun _ o ho => (render_succeeds (alone o ho)).2 (searched o ho), fun _ => rfl⟩
    case reports =>
      rw [run]
      exact fun _ => nofun
    case complete =>
      rw [run]
      exact fun _ => nofun

/-- Expressions are rendered as their trees are, and kernels as their outputs are. -/
theorem render_and_emit_agree (r : Registry K) (target : Target) {n : Node K}
    (coherent : Node.Coherent [n]) (outputs : Node.Coherent k.roots) :
    RendersAsTree r target n ∧ EmitsAsRendered r target k :=
  ⟨render_as_tree r target coherent, emit_as_rendered r target outputs⟩

/-- A kernel whose second output is a rotation about an axis, which is not rendered before it has
been lowered. -/
theorem render_and_emit_agree_rotation :
    let a : Node Float := .leaf 4 "a" .scalar
    let cosine : Node Float := .application 5 ⟨.scalar, "cos", [.scalar]⟩ [a]
    let rotation : Node Float := .application 6 ⟨.mat44, "mat44RotationX", [.scalar]⟩ [a]
    let k : Kernel Float := ⟨[("c", cosine), ("m", rotation)]⟩
    Node.Coherent [rotation] ∧ Node.Coherent k.roots ∧
      RendersAsTree .standard .c rotation ∧ EmitsAsRendered .standard .c k ∧
      (¬ ∃ text, Registry.standard.render .c rotation = .ok text) ∧
      (k.emit .standard .c).1 ≠ .ok () := by
  intro a cosine rotation k
  have coherent : Node.Coherent [cosine, rotation, a] :=
    .of_closed (by simp [cosine, rotation, a]) (by decide)
  have outputs : Node.Coherent k.roots := coherent.of_subset (by simp [k, roots])
  have alone : Node.Coherent [rotation] := coherent.of_subset (by simp)
  rcases render_and_emit_agree .standard .c alone outputs with ⟨tree, kernel⟩
  have fails : ¬ ∃ text, Registry.standard.render .c rotation = .ok text := by
    intro run
    let o : Standard.Operator := .axisRotation 1 .aboutX rfl
    have renders : Registry.standard.Renders .c o.signature :=
      tree.succeeds.1 run 6 o.signature [a] (.refl rotation)
    rw [Registry.Renders, o.hooks_eq] at renders
    exact absurd renders (by decide)
  refine ⟨alone, outputs, tree, kernel, fails, fun run => fails ?_⟩
  exact kernel.succeeds.1 run ("m", rotation) (by simp [k])

end Kernel

end

end SymbolicLinalg
