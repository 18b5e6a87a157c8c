import Mathlib.Data.List.Nodup
import Mathlib.Data.List.Perm.Basic
import Mathlib.Logic.Function.Basic
import Std.Data.String.ToNat
import SymbolicLinalg.Proofs.Emission

/-!
# Scoping — what the names in emitted lines stand for

The lines of a kernel declare its outputs and its temporaries, and refer to leaves and temporaries by
their names.  The names of leaves and outputs are the caller's, and the temporaries are numbered
whatever these are.  So it is up to the caller that no declaration hides the variable of a leaf:

* `Kernel.CaptureFree`: no line hides a leaf or an earlier line;
* `Kernel.Unclashed`: the names that the caller has chosen keep apart;
* `Kernel.emit_scopes`: the one comes down to the other, and then the lines, carried out one after the
  other, read every leaf as the caller has set it and give every output its value.
-/

namespace SymbolicLinalg

variable {K α : Type}

/-! ## Carrying out lines -/

/-- What constants and operators come to, where emitted lines are carried out. -/
structure Machine (K α : Type) where
  constant : Literal K → α
  apply : Signature → List α → α

namespace Form

mutual

/-- What a form comes to, where leaves and temporaries are variables. -/
def run (machine : Machine K α) (env : String → α) (form : Form K) : α :=
  match form with
  | .constant value => machine.constant value
  | .leaf name => env name
  | .temporary index => env (Kernel.temporaryName index)
  | .application operator operands => machine.apply operator (runAll machine env operands)

def runAll (machine : Machine K α) (env : String → α) (forms : List (Form K)) : List α :=
  match forms with
  | [] => []
  | form :: rest => form.run machine env :: runAll machine env rest

end

theorem runAll_eq_map (machine : Machine K α) (env : String → α) (forms : List (Form K)) :
    runAll machine env forms = forms.map (run machine env) := by
  induction forms with
  | nil => rw [runAll, List.map_nil]
  | cons form rest ih => rw [runAll, ih, List.map_cons]

theorem run_application (machine : Machine K α) (env : String → α) (s : Signature)
    (operands : List (Form K)) :
    (Form.application s operands).run machine env =
      machine.apply s (operands.map (run machine env)) := by
  rw [run, runAll_eq_map]

end Form

/-- What a node comes to, where its leaves are variables. -/
def Node.run (machine : Machine K α) (env : String → α) (n : Node K) : α :=
  (n.body []).run machine env

theorem Node.run_application (machine : Machine K α) (env : String → α) (id : NodeId)
    (s : Signature) (operands : List (Node K)) :
    (Node.application id s operands).run machine env =
      machine.apply s (operands.map (Node.run machine env)) := by
  simp only [Node.run, Node.body_application, Form.run_application, List.map_map]
  refine congrArg (machine.apply s) (List.map_congr_left fun m _ => ?_)
  exact congrArg (Form.run machine env) (Node.reference_nil m)

section

variable {machine : Machine K α} {env now : String → α} {hoisted : List NodeId} {n : Node K}

/-- Where leaves are as they were, and the temporaries that are referred to stand for their nodes, a
node that refers to them comes to what it would come to without them. -/
theorem run_body
    (leaves : ∀ id name s, n.Reaches (.leaf id name s) → now name = env name)
    (stands : ∀ x, n.Reaches x → x.id ∈ hoisted →
      hoisted.idxOf x.id ∈ (n.body hoisted).temporaries →
        now (Kernel.temporaryName (hoisted.idxOf x.id)) = x.run machine env) :
    (n.body hoisted).run machine now = n.run machine env := by
  induction n using Node.induct with
  | constant id v => rfl
  | leaf id name s => exact leaves id name s (.refl _)
  | application id s operands ih =>
      rw [Node.body_application, Form.run_application, Node.run_application, List.map_map]
      refine congrArg (machine.apply s) (List.map_congr_left fun m hm => ?_)
      have operand : (Node.application id s operands).Reaches m := .of_mem_operands hm
      have refers (index : Nat) (h : index ∈ (m.reference hoisted).temporaries) :
          index ∈ ((Node.application id s operands).body hoisted).temporaries := by
        rw [Node.body_application, Form.temporaries, Form.mem_temporariesAll]
        exact ⟨_, List.mem_map_of_mem hm, h⟩
      change (m.reference hoisted).run machine now = m.run machine env
      rw [Node.reference] at refers ⊢
      split
      · rename_i among
        rw [if_pos among, Form.temporaries] at refers
        exact stands m operand among (refers _ (List.mem_singleton_self _))
      · rename_i apart
        rw [if_neg apart] at refers
        exact ih m hm (fun i name t below => leaves i name t (operand.trans below))
          fun x below among h => stands x (operand.trans below) among (refers _ h)

theorem run_reference
    (leaves : ∀ id name s, n.Reaches (.leaf id name s) → now name = env name)
    (stands : ∀ x, n.Reaches x → x.id ∈ hoisted →
      hoisted.idxOf x.id ∈ (n.reference hoisted).temporaries →
        now (Kernel.temporaryName (hoisted.idxOf x.id)) = x.run machine env) :
    (n.reference hoisted).run machine now = n.run machine env := by
  rw [Node.reference] at stands ⊢
  split
  · rename_i among
    rw [if_pos among, Form.temporaries] at stands
    exact stands n (.refl n) among (List.mem_singleton_self _)
  · rename_i apart
    rw [if_neg apart] at stands
    exact run_body leaves stands

end

namespace Kernel

/-- A line gives the variable that it declares the value of its right-hand side. -/
def Line.execute (machine : Machine K α) (hoisted : List NodeId) (env : String → α)
    (line : Line K) : String → α :=
  Function.update env line.name ((line.form hoisted).run machine env)

/-- Lines are carried out one after the other. -/
def execute (machine : Machine K α) (hoisted : List NodeId) (env : String → α)
    (lines : List (Line K)) : String → α :=
  lines.foldl (Line.execute machine hoisted) env

/-! ## Names -/

variable {k : Kernel K} {lines : List (Line K)}

/-- No line hides a leaf or an earlier line. -/
structure CaptureFree (k : Kernel K) (lines : List (Line K)) : Prop where
  leaves : ∀ line ∈ lines, ∀ id name s, Node.Below k.roots (.leaf id name s) → line.name ≠ name
  once : (lines.map Line.name).Nodup

/-- The names of leaves and outputs keep apart from one another and from those of temporaries. -/
structure Unclashed (k : Kernel K) (temporaries : Nat) : Prop where
  leavesTemporaries : ∀ id name s, Node.Below k.roots (.leaf id name s) →
    ∀ index < temporaries, temporaryName index ≠ name
  leavesOutputs : ∀ id name s, Node.Below k.roots (.leaf id name s) →
    name ∉ k.outputs.map Prod.fst
  outputs : ∀ index < temporaries, temporaryName index ∉ k.outputs.map Prod.fst

theorem temporaryName_injective : Function.Injective temporaryName :=
  fun _ _ same => Nat.repr_inj.1 ((String.append_right_inj "_t").1 same)

/-- The names of lines are those of the temporaries and the outputs. -/
theorem names_perm (lines : List (Line K)) :
    (lines.map Line.name).Perm
      (((lines.filterMap Line.temporary?).map Prod.snd).map temporaryName ++
        (lines.filterMap Line.output?).map Prod.fst) := by
  induction lines with
  | nil => exact .nil
  | cons line rest ih =>
      cases line with
      | temporary index n => exact ih.cons (temporaryName index)
      | output name root => exact (ih.cons name).trans List.perm_middle.symm

/-- Lines capture no name exactly if the names that have been chosen keep apart. -/
theorem captureFree_iff {temporaries : Nat} (distinct : (k.outputs.map Prod.fst).Nodup)
    (names : (lines.map Line.name).Perm
      ((List.range temporaries).map temporaryName ++ k.outputs.map Prod.fst)) :
    CaptureFree k lines ↔ Unclashed k temporaries := by
  have declared {name : String} : (∃ line ∈ lines, line.name = name) ↔
      (∃ index < temporaries, temporaryName index = name) ∨ name ∈ k.outputs.map Prod.fst := by
    rw [← List.mem_map, names.mem_iff, List.mem_append, List.mem_map]
    simp only [List.mem_range]
  have numbered : ((List.range temporaries).map temporaryName).Nodup :=
    List.nodup_range.map temporaryName_injective
  constructor
  · rintro ⟨leaves, once⟩
    rw [names.nodup_iff, List.nodup_append] at once
    refine ⟨fun id name s below index early same => ?_, fun id name s below named => ?_,
      fun index early named => ?_⟩
    · rcases declared.2 (.inl ⟨index, early, same⟩) with ⟨line, hline, same⟩
      exact leaves line hline id name s below same
    · rcases declared.2 (.inr named) with ⟨line, hline, same⟩
      exact leaves line hline id name s below same
    · have numbered := List.mem_map_of_mem (f := temporaryName) (List.mem_range.2 early)
      exact once.2.2 _ numbered _ named rfl
  · intro h
    refine ⟨fun line hline id name s below same => ?_, ?_⟩
    · rcases declared.1 ⟨line, hline, same⟩ with ⟨index, early, same⟩ | named
      · exact h.leavesTemporaries id name s below index early same
      · exact h.leavesOutputs id name s below named
    · rw [names.nodup_iff, List.nodup_append]
      refine ⟨numbered, distinct, fun name hname other hother same => ?_⟩
      rcases List.mem_map.1 hname with ⟨index, early, rfl⟩
      exact h.outputs index (List.mem_range.1 early) (same ▸ hother)

/-! ## Values -/

section

variable {machine : Machine K α} {env now : String → α} {before after : List (Line K)} {line : Line K}

/-- What holds after some lines: leaves are as the caller has set them, and every variable that has
been declared has the value of its node. -/
structure Kept (k : Kernel K) (machine : Machine K α) (env : String → α) (before : List (Line K))
    (now : String → α) : Prop where
  leaves : ∀ id name s, Node.Below k.roots (.leaf id name s) → now name = env name
  declared : ∀ line ∈ before, now line.name = line.node.run machine env

/-- A new name leaves everything else as it was. -/
theorem Kept.snoc (h : Kept k machine env before now)
    (apart : ∀ id name s, Node.Below k.roots (.leaf id name s) → line.name ≠ name)
    (fresh : line.name ∉ before.map Line.name) :
    Kept k machine env (before ++ [line])
      (Function.update now line.name (line.node.run machine env)) where
  leaves id name s below := by
    rw [Function.update_of_ne (apart id name s below).symm]
    exact h.leaves id name s below
  declared := by
    refine List.forall_mem_append.2 ⟨fun other hother => ?_, List.forall_mem_singleton.2 ?_⟩
    · have differs : other.name ≠ line.name := by
        intro same
        exact fresh (same ▸ List.mem_map_of_mem hother)
      rw [Function.update_of_ne differs]
      exact h.declared other hother
    · exact Function.update_self ..

variable [Arithmetic K] [Numeral K] {r : Registry K} {target : Target} {e : Emission}

/-- The right-hand side of a line comes to the value of its node. -/
theorem run_line (coherent : Node.Coherent k.roots)
    (written : Written r target (k.shares k.planned) k.planned k.planned k.outputs lines e)
    (split : lines = before ++ line :: after) (h : Kept k machine env before now) :
    (line.form (hoistedIds (k.shares k.planned) k.planned)).run machine now =
      line.node.run machine env := by
  have ids := (planned_sorted coherent).nodup_ids_reverse
  have below : Node.Below k.roots line.node := by
    have hline : line ∈ lines := split ▸ List.mem_append_cons_self
    cases line with
    | temporary index n =>
        have listed : (n, index) ∈ (k.planned.filter (k.shares k.planned)).zipIdx := by
          rw [← written.declared]
          exact List.mem_filterMap.2 ⟨_, hline, rfl⟩
        have planned := (List.mem_filter.1 (List.fst_mem_of_mem_zipIdx listed)).1
        exact (mem_planned_iff coherent).1 planned
    | output name root =>
        have named : (name, root) ∈ k.outputs := by
          rw [← written.named]
          exact List.mem_filterMap.2 ⟨_, hline, rfl⟩
        exact .of_mem (List.mem_map_of_mem named)
  have leaves (id : NodeId) (name : String) (s : Shape) (hx : line.node.Reaches (.leaf id name s)) :
      now name = env name := h.leaves id name s (below.of_reaches hx)
  -- a temporary that is referred to has been declared, with the value of the node it stands for
  have stands (x : Node K) (hx : line.node.Reaches x)
      (among : x.id ∈ hoistedIds (k.shares k.planned) k.planned)
      (refers : (hoistedIds (k.shares k.planned) k.planned).idxOf x.id ∈
        (line.form (hoistedIds (k.shares k.planned) k.planned)).temporaries) :
      now (temporaryName ((hoistedIds (k.shares k.planned) k.planned).idxOf x.id)) =
        x.run machine env := by
    rcases written.ordered before line after split _ refers with ⟨n, hn⟩
    have listed : (n, (hoistedIds (k.shares k.planned) k.planned).idxOf x.id) ∈
        (k.planned.filter (k.shares k.planned)).zipIdx := by
      rw [← written.declared]
      exact List.mem_filterMap.2 ⟨_, split ▸ List.mem_append_left _ hn, rfl⟩
    have hplanned : x ∈ k.planned := (mem_planned_iff coherent).2 (below.of_reaches hx)
    rw [List.mk_mem_zipIdx_iff_getElem?,
      getElem?_hoistedIds ids (List.append_nil k.planned) hplanned among] at listed
    obtain rfl := Option.some.inj listed
    exact h.declared _ hn
  cases line with
  | temporary index n => exact run_body leaves stands
  | output name root => exact run_reference leaves stands

/-- Whatever has been carried out, the variables are kept. -/
theorem execute_kept (coherent : Node.Coherent k.roots)
    (written : Written r target (k.shares k.planned) k.planned k.planned k.outputs lines e)
    (free : CaptureFree k lines) (machine : Machine K α) (env : String → α)
    (split : lines = before ++ after) :
    Kept k machine env before
      (execute machine (hoistedIds (k.shares k.planned) k.planned) env before) := by
  induction before using List.reverseRecOn generalizing after with
  | nil => exact ⟨fun _ _ _ _ => rfl, nofun⟩
  | append_singleton before line ih =>
      rw [List.append_assoc, List.singleton_append] at split
      have kept := ih split
      have hline : line ∈ lines := split ▸ List.mem_append_cons_self
      have fresh : line.name ∉ before.map Line.name := by
        have once := free.once
        rw [split, List.map_append, List.nodup_append] at once
        exact fun among => once.2.2 _ among _ List.mem_cons_self rfl
      have next := kept.snoc (free.leaves line hline) fresh
      rw [execute, List.foldl_append, List.foldl_cons, List.foldl_nil, Line.execute, ← execute,
        run_line coherent written split kept]
      exact next

end

/-! ## A kernel with one temporary -/

namespace Clash

/-- A leaf of some name. -/
def angle (name : String) : Node Float :=
  .leaf 4 name .scalar

def cosine (name : String) : Node Float :=
  .application 5 ⟨.scalar, "cos", [.scalar]⟩ [angle name]

def double (name : String) : Node Float :=
  .application 6 ⟨.scalar, "+", [.scalar, .scalar]⟩ [cosine name, cosine name]

def product (name : String) : Node Float :=
  .application 7 ⟨.scalar, "*", [.scalar, .scalar]⟩ [double name, angle name]

/-- The leaf times the double of its cosine, which is computed once. -/
def kernel (name : String) : Kernel Float :=
  ⟨[("y", product name)]⟩

variable (name : String)

theorem mem_of_below {x : Node Float} (below : Node.Below (kernel name).roots x) :
    x ∈ [product name, double name, cosine name, angle name] := by
  rcases below with ⟨root, hroot, below⟩
  obtain rfl := List.mem_singleton.1 hroot
  exact below.mem_of_closed (by simp [product, double, cosine, angle]) List.mem_cons_self

theorem coherent : Node.Coherent (kernel name).roots := by
  have all : Node.Coherent [product name, double name, cosine name, angle name] :=
    .of_closed (by simp [product, double, cosine, angle]) (by simp [product, double, cosine, angle])
  exact all.of_subset (List.cons_subset_cons _ (List.nil_subset _))

theorem emits : ∃ e, (kernel name).emit .standard .c = (.ok (), e) := by
  refine emit_eq_ok (coherent name) fun root hroot id s operands below => ?_
  have known := mem_of_below name ⟨root, hroot, below⟩
  simp only [List.mem_cons, List.not_mem_nil, or_false, product, double, cosine, angle,
    Node.application.injEq, reduceCtorEq] at known
  rw [Registry.Renders]
  rcases known with ⟨_, rfl, _⟩ | ⟨_, rfl, _⟩ | ⟨_, rfl, _⟩
  · decide +kernel
  · decide +kernel
  · decide +kernel

theorem planned_eq :
    (kernel name).planned = [angle name, cosine name, double name, product name] := by
  simp [planned, blocks, blocksFrom, kernel, angle, cosine, double, product, Node.postOrder,
    Node.visit, Node.visitAll, Node.id, Node.Listing.push, Node.Listing.empty, Node.Listing.toList]

theorem shared_eq : (kernel name).planned.filter ((kernel name).shares (kernel name).planned) =
    [cosine name] := by
  rw [planned_eq]
  rfl

/-- The temporary is declared in front of the output. -/
theorem lines_eq {e : Emission} {lines : List (Line Float)}
    (written : Written .standard .c ((kernel name).shares (kernel name).planned)
      (kernel name).planned (kernel name).planned (kernel name).outputs lines e) :
    lines = [.temporary 0 (cosine name), .output "y" (product name)] := by
  have declared := written.declared
  have named := written.named
  rw [shared_eq] at declared
  have length := (names_perm lines).length_eq
  rw [declared, named] at length
  rcases List.length_eq_two.1 ((List.length_map _).symm.trans length) with ⟨first, second, rfl⟩
  cases first with
  | temporary index n =>
      cases second with
      | temporary => exact absurd named nofun
      | output other root =>
          obtain ⟨rfl, rfl⟩ := Prod.mk.inj (List.head_eq_of_cons_eq declared)
          obtain ⟨rfl, rfl⟩ := Prod.mk.inj (List.head_eq_of_cons_eq named)
          rfl
  | output other root =>
      obtain ⟨rfl, rfl⟩ := Prod.mk.inj (List.head_eq_of_cons_eq named)
      -- the output refers to a temporary that has not been declared
      have refers : 0 ∈ ((Line.output "y" (product name)).form (hoistedIds
          ((kernel name).shares (kernel name).planned) (kernel name).planned)).temporaries := by
        rw [hoistedIds, shared_eq]
        exact List.mem_cons_self
      rcases written.ordered [] _ _ rfl 0 refers with ⟨n, hn⟩
      exact absurd hn List.not_mem_nil

end Clash

/-! ## Emission -/

/-- Emitted lines, and what they come to. -/
structure Scopes [Arithmetic K] [Numeral K] (r : Registry K) (target : Target) (k : Kernel K) (e : Emission)
    (hoisted : List NodeId) (lines : List (Line K)) : Prop where
  written : e.lines.toList = lines.map (Line.text r target hoisted)
  /-- As many nodes have temporaries as are shared. -/
  temporaries : e.temporaries = (k.planned.filter (k.shares k.planned)).length
  names : (lines.map Line.name).Perm
    ((List.range e.temporaries).map temporaryName ++ k.outputs.map Prod.fst)
  captureFree_iff : CaptureFree k lines ↔ Unclashed k e.temporaries
  /-- In front of every line the leaves are as the caller has set them, and the line comes to the
  value of its node. -/
  reads : Unclashed k e.temporaries → ∀ {α : Type} (machine : Machine K α) (env : String → α)
    (before : List (Line K)) (line : Line K) (after : List (Line K)),
    lines = before ++ line :: after →
      (∀ id name s, Node.Below k.roots (.leaf id name s) →
        execute machine hoisted env before name = env name) ∧
      (line.form hoisted).run machine (execute machine hoisted env before) =
        line.node.run machine env
  outputs : Unclashed k e.temporaries → ∀ {α : Type} (machine : Machine K α) (env : String → α),
    ∀ o ∈ k.outputs, execute machine hoisted env lines o.1 = o.2.run machine env

/-- Nothing but the names of temporaries and outputs is declared.  Where the caller has chosen names
that keep apart, and only there, no line hides a leaf or an earlier line, and all lines read the
leaves as the caller has set them. -/
theorem emit_scopes [Arithmetic K] [Numeral K] {r : Registry K} {target : Target} {e : Emission}
    (coherent : Node.Coherent k.roots)
    (distinct : (k.outputs.map Prod.fst).Nodup) (run : k.emit r target = (.ok (), e)) :
    ∃ hoisted lines, Scopes r target k e hoisted lines := by
  have settles := emit_settles r target coherent
  rw [run] at settles
  rcases settles with ⟨lines, written⟩
  have names : (lines.map Line.name).Perm
      ((List.range e.temporaries).map temporaryName ++ k.outputs.map Prod.fst) := by
    have perm := names_perm lines
    rwa [written.named, written.declared, List.zipIdx_map_snd, ← written.temporaries,
      ← List.range_eq_range'] at perm
  have free := captureFree_iff distinct names
  refine ⟨_, lines, written.written, written.temporaries, names, free, ?_, ?_⟩
  · intro apart α machine env before line after split
    have kept := execute_kept coherent written (free.2 apart) machine env split
    exact ⟨kept.leaves, run_line coherent written split kept⟩
  · intro apart α machine env o ho
    have kept := execute_kept coherent written (free.2 apart) machine env
      (List.append_nil lines).symm
    rw [← written.named] at ho
    rcases List.mem_filterMap.1 ho with ⟨line, hline, same⟩
    cases line with
    | temporary => exact absurd same nofun
    | output name root =>
        obtain rfl := Option.some.inj same
        exact kept.declared _ hline

/-- A leaf of another name is not hidden. -/
theorem emit_scopes_apart :
    let k := Clash.kernel "a"
    ∃ e hoisted lines, k.emit .standard .c = (.ok (), e) ∧ Unclashed k e.temporaries ∧
      Scopes .standard .c k e hoisted lines := by
  intro k
  rcases Clash.emits "a" with ⟨e, run⟩
  rcases emit_scopes (Clash.coherent "a") (List.nodup_singleton "y") run with
    ⟨hoisted, lines, scopes⟩
  refine ⟨e, hoisted, lines, run, ?_, scopes⟩
  have one : e.temporaries = 1 := by rw [scopes.temporaries, Clash.shared_eq, List.length_singleton]
  have named (id : NodeId) (name : String) (s : Shape) (below : Node.Below k.roots (.leaf id name s)) :
      name = "a" := by
    have known := Clash.mem_of_below "a" below
    simp only [List.mem_cons, List.not_mem_nil, or_false, Clash.product, Clash.double, Clash.cosine,
      Clash.angle, Node.leaf.injEq, reduceCtorEq, false_or] at known
    exact known.2.1
  rw [one]
  refine ⟨fun id name s below index early => ?_, fun id name s below => ?_, fun index early => ?_⟩
  · obtain rfl := Nat.lt_one_iff.1 early
    rw [named id name s below]
    decide
  · rw [named id name s below]
    decide
  · obtain rfl := Nat.lt_one_iff.1 early
    decide

/-- A leaf of the name of a temporary is hidden by it, and read where it is hidden. -/
theorem emit_captures :
    let k := Clash.kernel "_t0"
    (k.outputs.map Prod.fst).Nodup ∧ Node.Coherent k.roots ∧
      Node.Below k.roots (.leaf 4 "_t0" .scalar) ∧
      ∃ e, k.emit .standard .c = (.ok (), e) ∧
        e.lines.toList = ["double _t0 = cos(_t0);", "double y = ((_t0 + _t0) * _t0);"] := by
  intro k
  rcases Clash.emits "_t0" with ⟨e, run⟩
  have settles := emit_settles .standard .c (Clash.coherent "_t0")
  rw [run] at settles
  rcases settles with ⟨lines, written⟩
  refine ⟨List.nodup_singleton _, Clash.coherent "_t0", ?_, e, run, ?_⟩
  · exact ⟨_, List.mem_cons_self, .of_mem_operands (List.mem_cons_of_mem _ List.mem_cons_self)⟩
  · rw [written.written, Clash.lines_eq "_t0" written, hoistedIds, Clash.shared_eq]
    decide +kernel

end Kernel

end SymbolicLinalg
