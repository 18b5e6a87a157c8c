import Mathlib.Data.List.Induction
import SymbolicLinalg.Proofs.Concatenation
import SymbolicLinalg.Proofs.Growth

/-!
# Emission — kernels in let-normal form

The plan of a kernel lists every node below the outputs once, operands first.  While the nodes are
emitted in this order, the table has the text of each node that is done as it is written where the
node is used, and the lines are described as data: which node a temporary was declared with, and
which root an output was declared with.

* `Planned`: what holds of the nodes that are planned for some of the outputs;
* `Written`: what holds of an emission after some nodes and outputs, which `plain`, `hoist` and
  `output` keep;
* `unfold_hoisted`: temporaries replaced by what they were declared with come to the code of their
  nodes;
* `emit_letNormal`: what a kernel is when it has been emitted.
-/

namespace SymbolicLinalg

variable {K : Type}

namespace Kernel

/-! ## The plan -/

/-- The nodes that the outputs are named after. -/
def roots (k : Kernel K) : List (Node K) :=
  k.outputs.map Prod.snd

/-- The nodes of the plan, in the order in which they are rendered. -/
def planned (k : Kernel K) : List (Node K) :=
  k.blocks.flatMap Block.nodes

/-- What holds of the nodes that are planned so far. -/
structure Planned (roots : List (Node K)) (seen : Std.HashSet NodeId) (done : List (Node K)) :
    Prop where
  tracks : ∀ id, seen.contains id = true ↔ ∃ n ∈ done, n.id = id
  below : ∀ n ∈ done, Node.Below roots n
  sorted : Node.UsersFirst done.reverse

namespace Planned

variable {roots done : List (Node K)} {seen : Std.HashSet NodeId} {root : Node K}
  {outputs : List (String × Node K)}

theorem nothing (roots : List (Node K)) : Planned roots ∅ [] where
  tracks id := by simp
  below n hn := absurd hn List.not_mem_nil
  sorted := .nil

/-- The nodes for one output, less those that are planned already. -/
theorem block (h : Planned roots seen done) (coherent : Node.Coherent roots) (hroot : root ∈ roots) :
    let nodes := root.postOrder.filter fun n => !seen.contains n.id
    Planned roots (seen.insertMany (nodes.map Node.id)) (done ++ nodes) ∧ root ∈ done ++ nodes := by
  intro nodes
  have alone : Node.Coherent [root] := coherent.of_subset (by simpa using hroot)
  have belowRoots (n : Node K) (hn : n ∈ root.postOrder) : Node.Below roots n :=
    ⟨root, hroot, (Node.mem_postOrder_iff alone).1 hn⟩
  have known (n : Node K) (hn : n ∈ root.postOrder) (listed : (!seen.contains n.id) = false) :
      n ∈ done := by
    rcases (h.tracks n.id).1 (by simpa using listed) with ⟨m, hm, same⟩
    rwa [← coherent.eq_of_id_eq (h.below m hm) (belowRoots n hn) same]
  refine ⟨⟨fun id => ?_, fun n hn => ?_, ?_⟩, ?_⟩
  · rw [Std.HashSet.contains_insertMany_list, Bool.or_eq_true, h.tracks]
    simp [or_and_right, exists_or]
  · rcases List.mem_append.1 hn with hn | hn
    · exact h.below n hn
    · exact belowRoots n (List.mem_filter.1 hn).1
  · rw [List.reverse_append, ← List.filter_reverse]
    refine (Node.usersFirst_postOrder alone).merge h.sorted (fun n hn listed => ?_) ?_
    · exact List.mem_reverse.2 (known n (List.mem_reverse.1 hn) listed)
    · intro n _ new m hm same
      have listed := (h.tracks n.id).2 ⟨m, List.mem_reverse.1 hm, same⟩
      simp [listed] at new
  · have hroot := (Node.mem_postOrder_iff alone).2 (.refl root)
    cases listed : !seen.contains root.id with
    | true => exact List.mem_append_right done (List.mem_filter.2 ⟨hroot, listed⟩)
    | false => exact List.mem_append_left nodes (known root hroot listed)

theorem blocks (h : Planned roots seen done) (coherent : Node.Coherent roots)
    (among : ∀ o ∈ outputs, o.2 ∈ roots) :
    (∃ seen', Planned roots seen' (done ++ (blocksFrom seen outputs).flatMap Block.nodes)) ∧
      ∀ o ∈ outputs, o.2 ∈ done ++ (blocksFrom seen outputs).flatMap Block.nodes := by
  induction outputs generalizing seen done with
  | nil => simpa [blocksFrom] using ⟨seen, h⟩
  | cons output rest ih =>
      rcases output with ⟨name, root⟩
      rw [List.forall_mem_cons] at among
      rcases h.block coherent among.1 with ⟨planned, hroot⟩
      rcases ih planned among.2 with ⟨later, listed⟩
      rw [blocksFrom, List.flatMap_cons, ← List.append_assoc]
      exact ⟨later, List.forall_mem_cons.2 ⟨List.mem_append_left _ hroot, listed⟩⟩

end Planned

variable {k : Kernel K}

theorem planned_sorted (coherent : Node.Coherent k.roots) : Node.UsersFirst k.planned.reverse := by
  rcases (Planned.nothing k.roots).blocks coherent fun o ho => List.mem_map_of_mem ho with
    ⟨⟨_, planned⟩, _⟩
  exact planned.sorted

/-- The plan has exactly the nodes of the outputs. -/
theorem mem_planned_iff (coherent : Node.Coherent k.roots) {x : Node K} :
    x ∈ k.planned ↔ Node.Below k.roots x := by
  rcases (Planned.nothing k.roots).blocks coherent fun o ho => List.mem_map_of_mem ho with
    ⟨⟨_, planned⟩, roots⟩
  constructor
  · exact planned.below x
  · rintro ⟨root, hroot, below⟩
    rcases List.mem_map.1 hroot with ⟨o, ho, rfl⟩
    have listed := List.mem_reverse.2 (roots o ho)
    exact List.mem_reverse.1 (planned.sorted.reaches_mem listed below)

/-! ## Uses -/

theorem foldl_count_getD (ids : List NodeId) (counts : Std.HashMap NodeId Nat) (id : NodeId) :
    (ids.foldl (fun counts id => counts.insert id (counts.getD id 0 + 1)) counts).getD id 0 =
      counts.getD id 0 + ids.count id := by
  induction ids generalizing counts with
  | nil => simp
  | cons first rest ih =>
      rw [List.foldl_cons, ih, Std.HashMap.getD_insert, List.count_cons]
      by_cases same : first = id
      · subst same
        simp [Nat.add_assoc, Nat.add_comm]
      · simp [same]

/-- The node is an application that is used more than once: by the applications among the nodes, and
by the outputs. -/
def shares (k : Kernel K) (nodes : List (Node K)) (n : Node K) : Bool :=
  n.isApplication &&
    decide (1 < ((nodes.flatMap Node.operands).map Node.id).count n.id +
      (k.roots.map Node.id).count n.id)

theorem shares_planned (k : Kernel K) (n : Node K) :
    k.shares k.planned n = (n.isApplication && decide (1 < k.useCounts.getD n.id 0)) := by
  rw [shares, useCounts, foldl_count_getD, occurrences, List.count_append]
  simp [roots, planned, Nat.add_comm, List.map_flatMap, Function.comp_def]

/-! ## Lines -/

/-- A line of an emitted kernel. -/
inductive Line (K : Type) where
  | temporary (index : Nat) (node : Node K)
  | output (name : String) (root : Node K)

namespace Line

def name : Line K → String
  | .temporary index _ => temporaryName index
  | .output name _ => name

def node : Line K → Node K
  | .temporary _ n => n
  | .output _ root => root

/-- The right-hand side: a temporary is written out, and the root of an output may be a temporary. -/
def form (hoisted : List NodeId) : Line K → Form K
  | .temporary _ n => n.body hoisted
  | .output _ root => root.reference hoisted

def temporary? : Line K → Option (Node K × Nat)
  | .temporary index n => some (n, index)
  | .output _ _ => none

def output? : Line K → Option (String × Node K)
  | .temporary _ _ => none
  | .output name root => some (name, root)

def text [Arithmetic K] [Numeral K] (r : Registry K) (target : Target) (hoisted : List NodeId)
    (line : Line K) : String :=
  target.declaration line.node.shape line.name ((line.form hoisted).code r target temporaryName)

end Line

/-- Whatever temporary a line refers to is declared on a line before it. -/
def DeclaredFirst (hoisted : List NodeId) (lines : List (Line K)) : Prop :=
  ∀ before line after, lines = before ++ line :: after →
    ∀ index ∈ (line.form hoisted).temporaries, ∃ n, Line.temporary index n ∈ before

theorem DeclaredFirst.snoc {hoisted : List NodeId} {lines : List (Line K)} {line : Line K}
    (h : DeclaredFirst hoisted lines)
    (declared : ∀ index ∈ (line.form hoisted).temporaries, ∃ n, Line.temporary index n ∈ lines) :
    DeclaredFirst hoisted (lines ++ [line]) := by
  intro before last after split
  rcases List.eq_nil_or_concat after with rfl | ⟨rest, final, rfl⟩
  · -- the new line itself
    rcases List.append_inj' split rfl with ⟨rfl, same⟩
    obtain rfl := List.head_eq_of_cons_eq same
    exact declared
  · rw [List.concat_eq_append, ← List.cons_append, ← List.append_assoc] at split
    exact h before last rest (List.append_inj' split rfl).1

/-! ## Temporaries -/

/-- The identities of the nodes that get temporaries, in the order of their numbers. -/
def hoistedIds (shared : Node K → Bool) (nodes : List (Node K)) : List NodeId :=
  (nodes.filter shared).map Node.id

section

variable {shared : Node K → Bool} {nodes done later : List (Node K)} {n : Node K}

theorem mem_hoistedIds (distinct : (nodes.map Node.id).Nodup) (hn : n ∈ nodes) :
    n.id ∈ hoistedIds shared nodes ↔ shared n = true := by
  rw [hoistedIds, List.mem_map]
  constructor
  · rintro ⟨m, hm, same⟩
    rcases List.mem_filter.1 hm with ⟨hm, hoisted⟩
    rwa [List.inj_on_of_nodup_map distinct hm hn same] at hoisted
  · exact fun hoisted => ⟨n, List.mem_filter.2 ⟨hn, hoisted⟩, rfl⟩

/-- The number of a temporary is the number of those declared before. -/
theorem idxOf_hoistedIds (distinct : ((done ++ n :: later).map Node.id).Nodup)
    (hoisted : shared n = true) :
    (hoistedIds shared (done ++ n :: later)).idxOf n.id = (done.filter shared).length := by
  have apart : n.id ∉ (done.filter shared).map Node.id := by
    intro among
    rcases List.mem_map.1 among with ⟨m, hm, same⟩
    rw [List.map_append, List.nodup_append] at distinct
    exact distinct.2.2 m.id (List.mem_map_of_mem (List.mem_filter.1 hm).1) n.id
      (by simp) same
  rw [hoistedIds, List.filter_append, List.filter_cons_of_pos hoisted, List.map_append,
    List.idxOf_append_of_notMem apart, List.map_cons, List.idxOf_cons_self, List.length_map,
    Nat.add_zero]

/-- A number of a temporary leads back to its node. -/
theorem getElem?_hoistedIds (distinct : (nodes.map Node.id).Nodup) (split : done ++ later = nodes)
    (hn : n ∈ done) (among : n.id ∈ hoistedIds shared nodes) :
    (done.filter shared)[(hoistedIds shared nodes).idxOf n.id]? = some n := by
  subst split
  have hoisted := (mem_hoistedIds distinct (List.mem_append_left later hn)).1 among
  rcases List.append_of_mem hn with ⟨before, after, rfl⟩
  rw [List.append_assoc, List.cons_append] at distinct ⊢
  rw [idxOf_hoistedIds distinct hoisted, List.filter_append, List.filter_cons_of_pos hoisted]
  simp

end

/-! ## The fault -/

/-- The fault that is due to the first operator without a renderer. -/
def Missing (r : Registry K) (target : Target) (nodes : List (Node K)) (f : Fault) : Prop :=
  ∃ s, r.missing? target nodes = some s ∧ f = .error (.missingRenderer s target.name)

namespace Missing

variable {r : Registry K} {target : Target} {nodes done : List (Node K)} {f : Fault}

theorem append (h : Missing r target nodes f) (later : List (Node K)) :
    Missing r target (nodes ++ later) f := by
  rcases h with ⟨s, first, rfl⟩
  refine ⟨s, ?_, rfl⟩
  rw [Registry.missing?, List.findSome?_append, ← Registry.missing?, first, Option.some_or]

/-- Nodes that can be rendered may stand before. -/
theorem after (h : Missing r target nodes f)
    (renders : ∀ n ∈ done, ∀ s, n.operator? = some s → r.Renders target s) :
    Missing r target (done ++ nodes) f := by
  rcases h with ⟨s, first, rfl⟩
  refine ⟨s, ?_, rfl⟩
  rw [Registry.missing?, List.findSome?_append, ← Registry.missing?,
    Registry.missing?_eq_none.2 renders, Option.none_or, ← Registry.missing?, first]

end Missing

/-! ## The invariant -/

section

variable [Arithmetic K] [Numeral K]

/-- What has been written when some nodes are done and some outputs are declared. -/
structure Written (r : Registry K) (target : Target) (shared : Node K → Bool)
    (nodes done : List (Node K)) (outputs : List (String × Node K)) (lines : List (Line K))
    (e : Emission) : Prop where
  written : e.lines.toList = lines.map (Line.text r target (hoistedIds shared nodes))
  texts : ∀ n ∈ done, e.texts[n.id]? =
    some ((n.reference (hoistedIds shared nodes)).code r target temporaryName)
  temporaries : e.temporaries = (done.filter shared).length
  rendered : e.rendered.toList = (done.filter Node.isApplication).map Node.id
  declared : lines.filterMap Line.temporary? = (done.filter shared).zipIdx
  named : lines.filterMap Line.output? = outputs
  ordered : DeclaredFirst (hoistedIds shared nodes) lines
  renders : ∀ n ∈ done, ∀ s, n.operator? = some s → r.Renders target s

namespace Written

variable {r : Registry K} {target : Target} {shared : Node K → Bool}
  {nodes done later : List (Node K)} {outputs : List (String × Node K)} {lines : List (Line K)}
  {e : Emission} {n x : Node K} {name : String}

theorem nothing : Written r target shared nodes [] [] [] ⟨#[], ∅, 0, #[]⟩ where
  written := rfl
  texts n hn := absurd hn List.not_mem_nil
  temporaries := rfl
  rendered := rfl
  declared := rfl
  named := rfl
  ordered before line after split := by simp at split
  renders n hn := absurd hn List.not_mem_nil

/-- A hoisted node that is done has been declared. -/
theorem declares (h : Written r target shared (done ++ later) done outputs lines e)
    (distinct : ((done ++ later).map Node.id).Nodup) (hx : x ∈ done)
    (among : x.id ∈ hoistedIds shared (done ++ later)) :
    Line.temporary ((hoistedIds shared (done ++ later)).idxOf x.id) x ∈ lines := by
  have listed : (x, (hoistedIds shared (done ++ later)).idxOf x.id) ∈
      lines.filterMap Line.temporary? := by
    rw [h.declared, List.mk_mem_zipIdx_iff_getElem?]
    exact getElem?_hoistedIds distinct rfl hx among
  rcases List.mem_filterMap.1 listed with ⟨line, hline, same⟩
  cases line with
  | temporary index m =>
      obtain ⟨rfl, rfl⟩ := Prod.mk.inj (Option.some.inj same)
      exact hline
  | output => exact absurd same nofun

/-- The text of a node is added to the table. -/
theorem insert (h : Written r target shared nodes done outputs lines e)
    (distinct : ∀ m ∈ done, m.id ≠ n.id) {text : String}
    (same : text = (n.reference (hoistedIds shared nodes)).code r target temporaryName) :
    ∀ m ∈ done ++ [n], (e.texts.insert n.id text)[m.id]? =
      some ((m.reference (hoistedIds shared nodes)).code r target temporaryName) := by
  intro m hm
  rw [Std.HashMap.getElem?_insert]
  rcases List.mem_append.1 hm with hm | hm
  · rw [if_neg (by simpa using (distinct m hm).symm), h.texts m hm]
  · obtain rfl := List.mem_singleton.1 hm
    rw [if_pos (by simp), same]

/-- A node that is not hoisted is known by its text. -/
theorem plain (h : Written r target shared (done ++ n :: later) done outputs lines e)
    (sorted : Node.UsersFirst (done ++ n :: later).reverse) (once : shared n = false)
    (renders : ∀ s, n.operator? = some s → r.Renders target s) :
    Written r target shared (done ++ n :: later) (done ++ [n]) outputs lines
      { e with
        texts := e.texts.insert n.id
          ((n.body (hoistedIds shared (done ++ n :: later))).code r target temporaryName)
        rendered := if n.isApplication then e.rendered.push n.id else e.rendered } where
  written := h.written
  texts := by
    rcases sorted.before with ⟨_, distinct, _⟩
    have apart : n.id ∉ hoistedIds shared (done ++ n :: later) := by
      rw [mem_hoistedIds sorted.nodup_ids_reverse (by simp), once]
      exact Bool.false_ne_true
    exact h.insert distinct (by rw [Node.reference, if_neg apart])
  temporaries := by simp [h.temporaries, once]
  rendered := by
    cases app : n.isApplication <;> simp [h.rendered, app]
  declared := by simp [h.declared, once]
  named := h.named
  ordered := h.ordered
  renders := List.forall_mem_append.2 ⟨h.renders, List.forall_mem_singleton.2 renders⟩

/-- A hoisted node is declared, and known by the name of its temporary. -/
theorem hoist (h : Written r target shared (done ++ n :: later) done outputs lines e)
    (sorted : Node.UsersFirst (done ++ n :: later).reverse) (hoisted : shared n = true)
    (application : n.isApplication = true)
    (renders : ∀ s, n.operator? = some s → r.Renders target s) :
    Written r target shared (done ++ n :: later) (done ++ [n]) outputs
      (lines ++ [.temporary e.temporaries n])
      { lines := e.lines.push (target.declaration n.shape (temporaryName e.temporaries)
          ((n.body (hoistedIds shared (done ++ n :: later))).code r target temporaryName))
        texts := e.texts.insert n.id (temporaryName e.temporaries)
        temporaries := e.temporaries + 1
        rendered := e.rendered.push n.id } := by
  rcases sorted.before with ⟨operands, distinct, closed⟩
  have ids := sorted.nodup_ids_reverse
  have among : n.id ∈ hoistedIds shared (done ++ n :: later) :=
    (mem_hoistedIds ids (by simp)).2 hoisted
  constructor
  case written => simp [h.written, Line.text, Line.node, Line.name, Line.form]
  case texts =>
    refine h.insert distinct ?_
    rw [Node.reference, if_pos among, Form.code_temporary, idxOf_hoistedIds ids hoisted,
      h.temporaries]
  case temporaries => simp [h.temporaries, hoisted]
  case rendered => simp [h.rendered, application]
  case declared =>
    simp [h.declared, h.temporaries, hoisted, Line.temporary?, List.zipIdx_append]
  case named => simp [h.named, Line.output?]
  case ordered =>
    refine h.ordered.snoc fun index refers => ?_
    -- whatever is referred to lies below an operand, and has been done before
    rcases Node.temporaries_body refers with ⟨m, hm, x, below, hx, rfl⟩
    have hx' : x ∈ done := by
      have := closed.reaches_mem (List.mem_reverse.2 (operands m hm)) below
      exact List.mem_reverse.1 this
    exact ⟨x, h.declares ids hx' hx⟩
  case renders =>
    exact List.forall_mem_append.2 ⟨h.renders, List.forall_mem_singleton.2 renders⟩

/-- An output is declared when its root is done. -/
theorem output (h : Written r target shared (done ++ later) done outputs lines e)
    (sorted : Node.UsersFirst (done ++ later).reverse) (hn : n ∈ done) :
    Written r target shared (done ++ later) done (outputs ++ [(name, n)])
      (lines ++ [.output name n])
      { e with lines := e.lines.push (target.declaration n.shape name
          ((n.reference (hoistedIds shared (done ++ later))).code r target temporaryName)) } := by
  have ids := sorted.nodup_ids_reverse
  have closed : Node.UsersFirst done.reverse := by
    rw [List.reverse_append] at sorted
    exact sorted.of_append
  constructor
  case written => simp [h.written, Line.text, Line.node, Line.name, Line.form]
  case texts => exact h.texts
  case temporaries => exact h.temporaries
  case rendered => exact h.rendered
  case declared => simp [h.declared, Line.temporary?]
  case named => simp [h.named, Line.output?]
  case ordered =>
    refine h.ordered.snoc fun index refers => ?_
    rcases Node.temporaries_reference refers with ⟨x, below, hx, rfl⟩
    have hx' : x ∈ done :=
      List.mem_reverse.1 (closed.reaches_mem (List.mem_reverse.2 hn) below)
    exact ⟨x, h.declares ids hx' hx⟩
  case renders => exact h.renders

end Written

/-! ## The pass -/

variable {r : Registry K} {target : Target} {uses : Std.HashMap NodeId Nat}
  {shared : Node K → Bool} {nodes done later : List (Node K)} {outputs : List (String × Node K)}
  {e : Emission} {n : Node K}

/-- The text of a node whose operands are done. -/
theorem renderNode_triple {lines : List (Line K)}
    (h : Written r target shared nodes done outputs lines e)
    (operands : ∀ m ∈ n.operands, m ∈ done) :
    Triple (fun start => start = e) (renderNode r target n)
      (fun text final => text = (n.body (hoistedIds shared nodes)).code r target temporaryName ∧
        (∀ s, n.operator? = some s → r.Renders target s) ∧
        final = { e with
          rendered := if n.isApplication then e.rendered.push n.id else e.rendered })
      fun f _ => Missing r target [n] f := by
  rintro e rfl
  by_cases renders : ∀ s, n.operator? = some s → r.Renders target s
  · have text := nodeText_eq_ok (fun m hm => h.texts m (operands m hm)) renders
    refine Triple.bind (m := fun read start => read = e ∧ start = e)
      (.read fun _ same => ⟨same, same⟩) (fun read => ?_) e rfl
    refine Triple.bind (m := fun text start =>
      text = (n.body (hoistedIds shared nodes)).code r target temporaryName ∧ start = e) ?_
      fun text => ?_
    · rintro _ ⟨rfl, rfl⟩
      rw [text]
      exact ⟨rfl, rfl⟩
    · rintro _ ⟨rfl, rfl⟩
      cases app : n.isApplication with
      | true => exact ⟨rfl, renders, rfl⟩
      | false => exact ⟨rfl, renders, rfl⟩
  · simp only [not_forall] at renders
    rcases renders with ⟨s, applied, missing⟩
    cases n with
    | constant | leaf => exact absurd applied nofun
    | application id t operands =>
        obtain rfl := Option.some.inj applied
        refine Triple.bind (m := fun _ _ => True) (.read fun _ _ => trivial) (fun read => ?_) e rfl
        rw [nodeText_eq_error missing]
        exact fun _ _ => ⟨t, Registry.missing?_eq_some.2 ⟨[], id, _, [], rfl, missing,
          fun _ hm => absurd hm List.not_mem_nil⟩, rfl⟩

theorem emitNode_triple (sharing : ∀ n : Node K,
      shared n = (n.isApplication && decide (1 < uses.getD n.id 0)))
    (sorted : Node.UsersFirst (done ++ n :: later).reverse) :
    Triple (fun e => ∃ lines,
        Written r target shared (done ++ n :: later) done outputs lines e)
      (emitNode r target uses n)
      (fun _ e => ∃ lines,
        Written r target shared (done ++ n :: later) (done ++ [n]) outputs lines e)
      fun f _ => Missing r target [n] f := by
  rintro e ⟨lines, h⟩
  rw [emitNode, ← sharing n]
  refine (renderNode_triple h sorted.before.1).bind (fun text => ?_) e rfl
  rintro _ ⟨rfl, renders, rfl⟩
  cases hoisted : shared n with
  | true =>
      have application : n.isApplication = true := by
        rw [sharing n, Bool.and_eq_true] at hoisted
        exact hoisted.1
      rw [application]
      exact ⟨_, h.hoist sorted hoisted application renders⟩
  | false => exact ⟨_, h.plain sorted hoisted renders⟩

theorem emitNodes_triple (sharing : ∀ n : Node K,
      shared n = (n.isApplication && decide (1 < uses.getD n.id 0)))
    (sorted : Node.UsersFirst (done ++ (nodes ++ later)).reverse) :
    Triple (fun e => ∃ lines,
        Written r target shared (done ++ (nodes ++ later)) done outputs lines e)
      (nodes.forM (emitNode r target uses))
      (fun _ e => ∃ lines,
        Written r target shared (done ++ (nodes ++ later)) (done ++ nodes) outputs lines e)
      fun f _ => Missing r target nodes f := by
  induction nodes generalizing done with
  | nil =>
      rw [List.append_nil]
      exact .value fun _ h => h
  | cons n rest ih =>
      rw [List.cons_append] at sorted ⊢
      rw [List.forM_eq_forM, List.forM_cons]
      refine Triple.bind ((emitNode_triple sharing sorted).weaken (fun _ h => h) (fun _ _ h => h)
        fun f _ missing => missing.append rest) fun _ => ?_
      have split : done ++ n :: (rest ++ later) = (done ++ [n]) ++ (rest ++ later) := by simp
      rw [split] at sorted ⊢
      have joined : done ++ n :: rest = (done ++ [n]) ++ rest := by simp
      rw [joined]
      rintro e ⟨lines, h⟩
      have renders := (List.forall_mem_append.1 h.renders).2
      exact (ih sorted e ⟨lines, h⟩).imp (fun _ _ h => h) fun f _ missing => missing.after renders

theorem emitBlock_triple {b : Block K} (sharing : ∀ n : Node K,
      shared n = (n.isApplication && decide (1 < uses.getD n.id 0)))
    (sorted : Node.UsersFirst (done ++ (b.nodes ++ later)).reverse)
    (hroot : b.root ∈ done ++ b.nodes) :
    Triple (fun e => ∃ lines,
        Written r target shared (done ++ (b.nodes ++ later)) done outputs lines e)
      (emitBlock r target uses b)
      (fun _ e => ∃ lines, Written r target shared (done ++ (b.nodes ++ later)) (done ++ b.nodes)
        (outputs ++ [(b.name, b.root)]) lines e)
      fun f _ => Missing r target b.nodes f := by
  refine (emitNodes_triple sharing sorted).bind fun _ => ?_
  rw [← List.append_assoc] at sorted ⊢
  rintro e ⟨lines, h⟩
  refine Triple.bind (m := fun read start => read = e ∧ start = e)
    (.read fun _ same => ⟨same, same⟩) (fun read => ?_) e rfl
  rintro _ ⟨rfl, rfl⟩
  rw [Registry.operandText, h.texts b.root hroot]
  exact ⟨_, h.output sorted hroot⟩

theorem emitBlocks_triple {roots : List (Node K)} {seen : Std.HashSet NodeId}
    {rest : List (String × Node K)} (sharing : ∀ n : Node K,
      shared n = (n.isApplication && decide (1 < uses.getD n.id 0)))
    (coherent : Node.Coherent roots) (h : Planned roots seen done)
    (among : ∀ o ∈ rest, o.2 ∈ roots) (before : List (String × Node K)) :
    let nodes := done ++ (blocksFrom seen rest).flatMap Block.nodes
    Triple (fun e => ∃ lines, Written r target shared nodes done before lines e)
      ((blocksFrom seen rest).forM (emitBlock r target uses))
      (fun _ e => ∃ lines, Written r target shared nodes nodes (before ++ rest) lines e)
      fun f _ => Missing r target nodes f := by
  induction rest generalizing seen done before with
  | nil =>
      intro nodes
      have whole : nodes = done := by simp [nodes, blocksFrom]
      rw [whole, List.append_nil, blocksFrom]
      exact .value fun _ h => h
  | cons output rest ih =>
      rcases output with ⟨name, root⟩
      intro nodes
      rcases (h.blocks coherent among).1 with ⟨_, all⟩
      rw [List.forall_mem_cons] at among
      rcases h.block coherent among.1 with ⟨next, hroot⟩
      have sorted := all.sorted
      have later := ih next among.2 (before ++ [(name, root)])
      simp only [nodes] at *
      rw [blocksFrom, List.flatMap_cons] at sorted ⊢
      rw [List.forM_eq_forM, List.forM_cons]
      rintro e ⟨lines, h⟩
      refine Triple.bind ((emitBlock_triple sharing sorted hroot).weaken (fun _ h => h)
        (fun _ _ h => h) fun f _ missing => ?_) (fun _ => ?_) e ⟨lines, h⟩
      · exact (missing.append _).after h.renders
      · rw [← List.append_assoc]
        simpa using later

/-- An emission comes to its end, unless an operator has no renderer. -/
theorem emit_settles (r : Registry K) (target : Target) (coherent : Node.Coherent k.roots) :
    Settles (fun _ e => ∃ lines,
        Written r target (k.shares k.planned) k.planned k.planned k.outputs lines e)
      (fun f _ => Missing r target k.planned f) (k.emit r target) := by
  have among : ∀ o ∈ k.outputs, o.2 ∈ k.roots := fun o ho => List.mem_map_of_mem ho
  exact emitBlocks_triple k.shares_planned coherent (.nothing k.roots) among []
    ⟨#[], ∅, 0, #[]⟩ ⟨[], .nothing⟩

/-- A kernel is emitted, if all operators in it have renderers. -/
theorem emit_eq_ok (coherent : Node.Coherent k.roots)
    (renders : ∀ root ∈ k.roots, root.AppliesOnly (r.Renders target)) :
    ∃ e, k.emit r target = (.ok (), e) := by
  have settles := emit_settles r target coherent
  revert settles
  rcases k.emit r target with ⟨f | _, e⟩
  · rintro ⟨s, first, _⟩
    rcases Registry.missing?_eq_some.1 first with ⟨before, id, operands, after, split, missing, _⟩
    rcases (mem_planned_iff coherent).1 (split ▸ List.mem_append_right before List.mem_cons_self)
      with ⟨root, hroot, below⟩
    exact absurd (renders root hroot id s operands below) missing
  · exact fun _ => ⟨e, rfl⟩

/-! ## Unfolding -/

/-- Where the temporaries have been unfolded, each stands for the code of its node. -/
theorem unfold_hoisted {templates : Signature → Template}
    (sorted : Node.UsersFirst nodes.reverse) (split : done ++ later = nodes)
    (concatenating : ∀ n ∈ done, n.Concatenating r target templates) :
    Template.unfold ((done.filter shared).map fun n =>
        (n.body (hoistedIds shared nodes)).template target templates) =
      (done.filter shared).map (r.code target) := by
  induction done using List.reverseRecOn generalizing later with
  | nil => rfl
  | append_singleton done n ih =>
      rw [List.append_assoc, List.singleton_append] at split
      rw [List.forall_mem_append] at concatenating
      have before := ih split concatenating.1
      subst split
      cases hoisted : shared n with
      | false => simpa [hoisted] using before
      | true =>
          rw [List.filter_append, List.filter_cons_of_pos hoisted, List.filter_nil,
            List.map_append, List.map_append, List.map_singleton, List.map_singleton,
            Template.unfold_snoc, before]
          refine congrArg (fun text => _ ++ [text]) ?_
          rw [fill_template_body (concatenating.2 n (List.mem_singleton_self n))]
          refine code_body fun m hm x below among => ?_
          -- what the node refers to has been declared before
          rcases sorted.before with ⟨operands, _, closed⟩
          have hx : x ∈ done := List.mem_reverse.1
            (closed.reaches_mem (List.mem_reverse.2 (operands m hm)) below)
          rw [List.getD_eq_getElem?_getD, List.getElem?_map,
            getElem?_hoistedIds sorted.nodup_ids_reverse rfl hx among]
          rfl

/-- The templates of the temporaries, in the order of their declarations. -/
def declarations (target : Target) (templates : Signature → Template) (hoisted : List NodeId)
    (lines : List (Line K)) : List Template :=
  let nodes := (lines.filterMap Line.temporary?).map Prod.fst
  nodes.map fun n => (n.body hoisted).template target templates

/-- An emitted kernel in let-normal form, where `nodes` are those below the outputs. -/
structure LetNormal (r : Registry K) (target : Target) (k : Kernel K) (e : Emission)
    (nodes : List (Node K)) (lines : List (Line K)) : Prop where
  reached : ∀ x, x ∈ nodes ↔ Node.Below k.roots x
  distinct : (nodes.map Node.id).Nodup
  /-- Every application has been rendered once. -/
  rendered : e.rendered.toList = (nodes.filter Node.isApplication).map Node.id
  written : e.lines.toList =
    lines.map (Line.text r target (hoistedIds (k.shares nodes) nodes))
  /-- The nodes that are shared have temporaries, which are numbered in their order. -/
  declared : lines.filterMap Line.temporary? = (nodes.filter (k.shares nodes)).zipIdx
  named : lines.filterMap Line.output? = k.outputs
  ordered : DeclaredFirst (hoistedIds (k.shares nodes) nodes) lines
  /-- With temporaries in its holes a line is as it has been written. -/
  filled : ∀ templates : Signature → Template,
    (∀ root ∈ k.roots, root.Concatenating r target templates) → ∀ line ∈ lines,
      let form := line.form (hoistedIds (k.shares nodes) nodes)
      (form.template target templates).fill temporaryName = form.code r target temporaryName
  /-- With what the temporaries were declared with in its holes, an output is as it is rendered. -/
  unfolded : ∀ templates : Signature → Template,
    (∀ root ∈ k.roots, root.Concatenating r target templates) →
      ∀ name root, Line.output name root ∈ lines →
        let hoisted := hoistedIds (k.shares nodes) nodes
        let texts := Template.unfold (declarations target templates hoisted lines)
        r.render target root = .ok
          ((((Line.output name root).form hoisted).template target templates).fill
            fun place => texts.getD place "")

/-- Kernels are emitted in let-normal form. -/
theorem emit_letNormal (coherent : Node.Coherent k.roots)
    (run : k.emit r target = (.ok (), e)) : ∃ nodes lines, LetNormal r target k e nodes lines := by
  have settles := emit_settles r target coherent
  rw [run] at settles
  rcases settles with ⟨lines, h⟩
  have sorted := planned_sorted coherent
  have whole : k.planned ++ [] = k.planned := List.append_nil _
  have below (n : Node K) (hn : n ∈ k.planned) {templates : Signature → Template}
      (all : ∀ root ∈ k.roots, root.Concatenating r target templates) :
      n.Concatenating r target templates := by
    rcases (mem_planned_iff coherent).1 hn with ⟨root, hroot, below⟩
    exact fun id s operands hm => all root hroot id s operands (below.trans hm)
  have fromRoot {name : String} {root : Node K} (hline : Line.output name root ∈ lines) :
      root ∈ k.roots := by
    have hnamed : (name, root) ∈ k.outputs := by
      rw [← h.named]
      exact List.mem_filterMap.2 ⟨_, hline, rfl⟩
    exact List.mem_map_of_mem hnamed
  refine ⟨k.planned, lines, fun x => mem_planned_iff coherent, sorted.nodup_ids_reverse, h.rendered,
    h.written, h.declared, h.named, h.ordered, ?_, ?_⟩
  · intro templates all line hline
    cases line with
    | temporary index n =>
        have hn : (n, index) ∈ (k.planned.filter (k.shares k.planned)).zipIdx := by
          rw [← h.declared]
          exact List.mem_filterMap.2 ⟨_, hline, rfl⟩
        have hn := (List.mem_filter.1 (List.fst_mem_of_mem_zipIdx hn)).1
        exact fill_template_body (below n hn all) _ _
    | output name root => exact fill_template_reference (all root (fromRoot hline)) _ _
  · intro templates all name root hline hoisted texts
    have hroot := fromRoot hline
    have alone : Node.Coherent [root] := coherent.of_subset (by simpa using hroot)
    have listed (x : Node K) (hx : root.Reaches x) : x ∈ k.planned :=
      (mem_planned_iff coherent).2 ⟨root, hroot, hx⟩
    have renders : root.AppliesOnly (r.Renders target) :=
      fun id s operands hm => h.renders _ (listed _ hm) s rfl
    have unfolds : texts = (k.planned.filter (k.shares k.planned)).map (r.code target) := by
      simp only [texts, declarations, h.declared, List.zipIdx_map_fst]
      exact unfold_hoisted sorted whole fun n hn => below n hn all
    rw [render_eq_code alone renders]
    refine congrArg Except.ok (Eq.symm ?_)
    refine (fill_template_reference (all root hroot) hoisted _).trans ?_
    refine code_reference fun x hx among => ?_
    rw [unfolds, List.getD_eq_getElem?_getD, List.getElem?_map,
      getElem?_hoistedIds sorted.nodup_ids_reverse whole (listed x hx) among]
    rfl

/-- A kernel of two outputs, one of which is used twice in the other. -/
theorem emit_letNormal_double :
    let a : Node Float := .leaf 4 "a" .scalar
    let cosine : Node Float := .application 5 ⟨.scalar, "cos", [.scalar]⟩ [a]
    let double : Node Float := .application 6 ⟨.scalar, "+", [.scalar, .scalar]⟩ [cosine, cosine]
    let k : Kernel Float := ⟨[("y", double), ("z", cosine)]⟩
    ∃ e nodes lines, k.emit .standard .c = (.ok (), e) ∧ LetNormal .standard .c k e nodes lines ∧
      ∃ templates, ∀ root ∈ k.roots, root.Concatenating .standard .c templates := by
  intro a cosine double k
  let add : Standard.Operator := .addition .scalar (by decide)
  have typedCosine : Standard.Typed cosine :=
    Standard.typed_application .cosine 5 rfl (List.forall_mem_singleton.2 (.leaf 4 "a" .scalar))
  have typedDouble : Standard.Typed double :=
    Standard.typed_application add 6 rfl
      (List.forall_mem_cons.2 ⟨typedCosine, List.forall_mem_singleton.2 typedCosine⟩)
  have coherent : Node.Coherent [double, cosine, a] :=
    .of_closed (by simp [double, cosine, a]) (by decide)
  have renders (o : Standard.Operator) (plain : ((o.definition : Definition Float).hooks.render
      .c).isSome) : (Registry.standard : Registry Float).Renders .c o.signature := by
    rw [Registry.Renders, o.hooks_eq]
    exact plain
  have rendersCosine : cosine.AppliesOnly ((Registry.standard : Registry Float).Renders .c) :=
    Node.appliesOnly_application.2
      ⟨renders .cosine rfl, List.forall_mem_singleton.2 (Node.appliesOnly_of_plain rfl)⟩
  have rendersDouble : double.AppliesOnly ((Registry.standard : Registry Float).Renders .c) :=
    Node.appliesOnly_application.2
      ⟨renders add rfl, List.forall_mem_cons.2
        ⟨rendersCosine, List.forall_mem_singleton.2 rendersCosine⟩⟩
  have coherent : Node.Coherent k.roots := coherent.of_subset (by simp [k, roots])
  rcases emit_eq_ok coherent (List.forall_mem_cons.2
    ⟨rendersDouble, List.forall_mem_singleton.2 rendersCosine⟩) with ⟨e, run⟩
  rcases emit_letNormal coherent run with ⟨nodes, lines, normal⟩
  rcases Standard.exists_templates Float .c with ⟨templates, concatenating⟩
  refine ⟨e, nodes, lines, run, normal, templates, List.forall_mem_cons.2 ⟨?_, ?_⟩⟩
  · exact concatenating double typedDouble rendersDouble
  · exact List.forall_mem_singleton.2 (concatenating cosine typedCosine rendersCosine)

end

end Kernel

end SymbolicLinalg
