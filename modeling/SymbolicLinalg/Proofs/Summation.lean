import SymbolicLinalg.Proofs.Extension
import SymbolicLinalg.Proofs.Firing
import SymbolicLinalg.Proofs.Hooks
import SymbolicLinalg.Proofs.Session

/-!
# Summation — gradients that are sums

What is contributed to a node is checked, one contribution at a time; the sum of several is not.  It is
what the operator `+` of the registry makes of them, and the shapes of its operands alone decide which
operator that is.

* `Registry.run_contribute_leaf`, `run_contribute_application`, `run_propagate`: the steps of a sweep
  that goes well;
* `Standard.joining_backprop`: a sweep in which two vectors are added, whatever the sum is;
* `Session.Reachable.gradient_shapes`: in every session in which `+` adds alike, gradients have the
  shapes of what they are gradients of;
* `Session.gradient_of_other_shape`: a session in which the gradient of a vector is a scalar.
-/

namespace SymbolicLinalg

/-! ## Runs of a sweep -/

section

variable {K S α β : Type} {w : Workspace K} {s : S} {state : Workspace K × S}

theorem run_bind (first : StatefulWork K S α) (second : α → StatefulWork K S β) :
    (first >>= second).run.run state =
      match first.run.run state with
      | (.ok a, state') => (second a).run.run state'
      | (.error f, state') => (.error f, state') := by
  rw [ExceptT.run_bind, StateT.run_bind]
  rcases first.run.run state with ⟨_ | _, _⟩
  · rfl
  · rfl

theorem run_get : (get : StatefulWork K S _).run.run state = (.ok state, state) := rfl

theorem run_modifyGet (f : Workspace K × S → α × (Workspace K × S)) :
    (modifyGet f : StatefulWork K S α).run.run state = (.ok (f state).1, (f state).2) := rfl

theorem run_modify (f : Workspace K × S → Workspace K × S) :
    (modify f : StatefulWork K S Unit).run.run state = (.ok (), f state) := rfl

theorem run_within (work : Work K α) :
    (Work.within work : StatefulWork K S α).run.run (w, s) =
      ((work.runIn w).1, ((work.runIn w).2, s)) := rfl

theorem runIn_starting (work : StatefulWork K S α) :
    (Work.starting s work).runIn w = ((work.run.run (w, s)).1, (work.run.run (w, s)).2.1) := rfl

end

/-! ## Steps of a sweep -/

namespace Registry

variable {K : Type} [Arithmetic K] [Numeral K] {r : Registry K} {relevant : Std.HashSet NodeId}
  {w w' : Workspace K} {flow : Flow K} {n g total : Node K}

/-- What is contributed to an application above a leaf is kept until its hook fires. -/
theorem run_contribute_application (fits : g.shape = n.shape)
    (found : relevant.contains n.id = true) (application : n.isLeaf = false)
    (sum : (r.accumulate flow.pending[n.id]? g).runIn
      ⟨w.nextId, w.events.push (.contributed n g)⟩ = (.ok total, w')) :
    (r.contribute relevant ⟨n, g⟩).run.run (w, flow) =
      (.ok (), (w', { flow with pending := flow.pending.insert n.id total })) := by
  rw [contribute, if_neg (not_not.2 fits), run_bind, run_within, Work.runIn_record]
  simp only [found, application, if_true, Bool.false_eq_true, if_false, run_bind, run_get,
    run_within, sum, run_modify]

/-- What is contributed to a leaf adds to its gradient. -/
theorem run_contribute_leaf (fits : g.shape = n.shape) (found : relevant.contains n.id = true)
    (leaf : n.isLeaf = true)
    (sum : (r.accumulate (flow.gradients.get? n) g).runIn
      ⟨w.nextId, w.events.push (.contributed n g)⟩ = (.ok total, w')) :
    (r.contribute relevant ⟨n, g⟩).run.run (w, flow) =
      (.ok (), (w', { flow with gradients := flow.gradients.insert n total })) := by
  rw [contribute, if_neg (not_not.2 fits), run_bind, run_within, Work.runIn_record]
  simp only [found, leaf, if_true, run_bind, run_get, run_within, sum, run_modify]

/-- A hook fires with what is pending for its application. -/
theorem run_propagate {id : NodeId} {s : Signature} {operands : List (Node K)}
    {rule : Node K → List (Node K) → Recipe K (Contribution K) Unit Unit}
    (arrived : flow.pending[id]? = some g) (nonzero : g.isZero = false)
    (hook : (r.hooks s).gradient = some rule) :
    (r.propagate relevant (.application id s operands)).run.run (w, flow) =
      ((rule g operands).run (fun c => Work.within (r.make c)) (r.contribute relevant)
        fun e => Work.within (Work.refuse e)).run.run
          (⟨w.nextId, w.events.push (.propagating id s g)⟩,
            { flow with pending := flow.pending.erase id }) := by
  rw [propagate, run_bind, takePending?, run_modifyGet]
  simp only [arrived, nonzero, Bool.false_eq_true, if_false, hook]
  rw [run_bind, run_within, Work.runIn_record]

end Registry

/-! ## A sweep that adds -/

namespace Standard

/-- An operator that adds vectors, if its result is one. -/
def vectorSum (result : Shape) : Definition ℚ :=
  ⟨⟨result, "+", [.vec3, .vec3]⟩, {}⟩

/-- Both operands get the gradient that arrives. -/
def handOn (g : Node ℚ) : List (Node ℚ) → Recipe ℚ (Contribution ℚ) Unit Unit :=
  onTwo "join" fun a b => do
    contribute a g
    contribute b g

def join : Definition ℚ :=
  ⟨⟨.vec3, "join", [.vec3, .vec3]⟩, { gradient := some handOn }⟩

def joining (result : Shape) : Registry ℚ :=
  ⟨[vectorSum result, join]⟩

theorem joining_adds (result : Shape) {g : Node ℚ} (vector : g.shape = .vec3) (w : Workspace ℚ) :
    ((joining result).apply "+" [g, g]).runIn w =
      (.ok (.application w.nextId (vectorSum result).signature [g, g]),
        { w with nextId := w.nextId + 1 }) := by
  have found : (joining result).resolve "+" ([g, g].map Node.shape) = .ok (vectorSum result) := by
    rw [List.map_cons, List.map_singleton, vector]
    rfl
  have fits : Registry.checkOperands (vectorSum result).signature [g, g] = .ok () := by
    simp [Registry.checkOperands, vectorSum, Registry.mismatch?, vector]
  rw [Registry.apply, Registry.make_eq, Registry.makeWith, found]
  simp only [Work.runIn_bind, Work.runIn_ofExcept_ok, Registry.buildWith, fits]
  rfl

theorem joining_hooks (result : Shape) : (joining result).hooks join.signature = join.hooks := by
  simp [Registry.hooks, Registry.find?, joining, vectorSum, join]

section

variable (result : Shape) {relevant : Std.HashSet NodeId} {seed : Node ℚ}
  (vector : seed.shape = .vec3) (nonzero : seed.isZero = false)

include vector nonzero

/-- What is contributed to the two operands, which are one vector, is added. -/
theorem joining_propagate (found : relevant.contains 0 = true) (pending : Memo ℚ)
    (arrived : pending[2]? = some seed) (w : Workspace ℚ) :
    let x : Node ℚ := .leaf 0 "x" .vec3
    let sum : Node ℚ := .application w.nextId (vectorSum result).signature [seed, seed]
    let told := w.events.push (.propagating 2 join.signature seed)
    ((joining result).propagate relevant (.application 2 join.signature [x, x])).run.run
        (w, ⟨pending, .empty⟩) =
      (.ok (), (⟨w.nextId + 1, (told.push (.contributed x seed)).push (.contributed x seed)⟩,
        ⟨pending.erase 2, (Gradients.empty.insert x seed).insert x sum⟩)) := by
  intro x sum told
  have hook : ((joining result).hooks join.signature).gradient = some handOn := by
    rw [joining_hooks]
    rfl
  have routed : handOn seed [x, x] = .ask ⟨x, seed⟩ fun _ => .ask ⟨x, seed⟩ .done := rfl
  have first (now : Workspace ℚ) (pending : Memo ℚ) :
      ((joining result).contribute relevant ⟨x, seed⟩).run.run (now, ⟨pending, .empty⟩) =
        (.ok (), (⟨now.nextId, now.events.push (.contributed x seed)⟩,
          ⟨pending, Gradients.empty.insert x seed⟩)) := by
    refine Registry.run_contribute_leaf vector found rfl ?_
    rw [Gradients.get?_empty]
    rfl
  have second (now : Workspace ℚ) (pending : Memo ℚ) :
      ((joining result).contribute relevant ⟨x, seed⟩).run.run
          (now, ⟨pending, Gradients.empty.insert x seed⟩) =
        (.ok (), (⟨now.nextId + 1, now.events.push (.contributed x seed)⟩,
          ⟨pending, (Gradients.empty.insert x seed).insert x
            (.application now.nextId (vectorSum result).signature [seed, seed])⟩)) := by
    refine Registry.run_contribute_leaf vector found rfl ?_
    rw [Gradients.get?_insert, if_pos rfl]
    exact joining_adds result vector _
  rw [Registry.run_propagate arrived nonzero hook, routed, Recipe.run, run_bind, first]
  dsimp only
  rw [Recipe.run, run_bind, second]
  rfl

/-- The seed reaches the root, and from there the vector, twice. -/
theorem joining_backprop (events : Array (Event ℚ)) :
    let x : Node ℚ := .leaf 0 "x" .vec3
    let e : Node ℚ := .application 2 join.signature [x, x]
    ∃ gradients w, ((joining result).backpropFrom e [x] seed).runIn ⟨3, events⟩ =
        (.ok gradients, w) ∧
      gradients.get? x = some (.application 3 (vectorSum result).signature [seed, seed]) := by
  intro x e
  let sum : Node ℚ := .application 3 (vectorSum result).signature [seed, seed]
  suffices run : (((joining result).backpropFrom e [x] seed).runIn ⟨3, events⟩).1 =
      .ok ((Gradients.empty.insert x seed).insert x sum) from
    ⟨_, _, Prod.ext run rfl, (Gradients.get?_insert _ x sum x).trans (if_pos rfl)⟩
  have accepted : [x].forM Registry.checkDependency = .ok () := rfl
  have order : e.postOrder = [x, e] := by
    simp [e, x, Node.postOrder, Node.visit, Node.visitAll, Node.Listing.push, Node.Listing.empty,
      Node.Listing.toList]
  let relevant := Registry.relevantNodes (.ofList ([x].map Node.id)) [x, e]
  have leaf_found : relevant.contains 0 = true := by
    simp [relevant, Registry.relevantNodes, e, x]
  have root_found : relevant.contains 2 = true := by
    simp [relevant, Registry.relevantNodes, e, x]
  have seeded : ((joining result).contribute relevant ⟨e, seed⟩).run.run
      (⟨3, events⟩, ⟨∅, .empty⟩) = (.ok (), (⟨3, events.push (.contributed e seed)⟩,
        ⟨(∅ : Memo ℚ).insert 2 seed, .empty⟩)) := by
    refine Registry.run_contribute_application vector root_found rfl ?_
    rw [Std.HashMap.getElem?_empty]
    rfl
  have fired := joining_propagate result vector nonzero leaf_found ((∅ : Memo ℚ).insert 2 seed)
    Std.HashMap.getElem?_insert_self ⟨3, events.push (.contributed e seed)⟩
  rw [Registry.backpropFrom, Work.runIn_bind, accepted]
  simp only [Work.runIn_ofExcept_ok, order]
  rw [if_neg (not_not.2 (show seed.shape = e.shape from vector)), runIn_starting, run_bind, seeded]
  -- the root is visited first, and the vector, a leaf, has no hook
  let visit := (joining result).propagate relevant
  change (((visit e >>= fun _ => [x].forM visit) >>= _ : Sweep ℚ _).run.run _).1 = _
  rw [run_bind, run_bind, fired]
  rfl

end

end Standard

namespace Session

open Standard

/-- A session in which vectors are joined, and added somehow. -/
def joined (result : Shape) : Session ℚ where
  registry := joining result
  workspace := ⟨3, #[.registered (vectorSum result).signature [],
    .registered join.signature join.hooks.present]⟩
  nodes := [.application 2 join.signature [.leaf 0 "x" .vec3, .leaf 0 "x" .vec3],
    .constant 1 (.one .vec3), .leaf 0 "x" .vec3]
  passes := []

theorem joined_reachable (result : Shape) : (joined result).Reachable := by
  have sums : (vectorSum result).Honest [] := ⟨nofun, nofun, nofun, nofun, nofun⟩
  have joins : join.Honest [] := by
    refine ⟨nofun, nofun, nofun, nofun, fun hook g operands given _ hg below => ?_⟩
    cases hook
    refine draws_onTwo below fun a b ha hb => ?_
    exact ⟨List.forall_mem_cons.2 ⟨ha, List.forall_mem_singleton.2 hg⟩, fun _ =>
      ⟨List.forall_mem_cons.2 ⟨hb, List.forall_mem_singleton.2 hg⟩, fun _ => trivial⟩⟩
  have free : Registry.key join ∉ [vectorSum result].map Registry.key := by
    simp [Registry.key, join, vectorSum]
  have joining_defined (w : Workspace ℚ) :
      ((Registry.mk [vectorSum result]).define join).runIn w = (.ok (joining result),
        ⟨w.nextId, w.events.push (.registered join.signature join.hooks.present)⟩) := by
    rw [Registry.define, Work.runIn_bind, Registry.register_eq_ok free]
    rfl
  let x : Node ℚ := .leaf 0 "x" .vec3
  have nothing {given : List (Node ℚ)} : ∀ n ∈ ([] : List (Node ℚ)), Node.Below given n :=
    fun n none => absurd none List.not_mem_nil
  refine .step (.step (.step (.step (.step (.start ⟨0, #[]⟩) (.define sums rfl))
    (.define joins (joining_defined _)))
    (.perform (show Operation.Allowed _ (.make (.leaf "x" .vec3)) from trivial) nothing rfl))
    (.perform (show Operation.Allowed _ (.make (.constant (.one .vec3))) from trivial) nothing rfl))
    (.perform (show Operation.Allowed _ (.make (.apply "join" [x, x])) from trivial) ?_ rfl)
  have known : Node.Below [.constant 1 (.one .vec3), x] x := .of_mem (by simp)
  exact List.forall_mem_cons.2 ⟨known, List.forall_mem_singleton.2 known⟩

variable {K : Type} [Arithmetic K] [Numeral K] {s : Session K} {w : Workspace K}

/-- If sums have the shapes of their operands, every hook is carried out for a gradient of the shape of
its application, also in a sweep that is given up, and whatever a sweep leaves for a leaf has the shape
of the leaf.  Without the assumption on sums this fails: they are not checked. -/
theorem Reachable.gradient_shapes (h : s.Reachable) (adds : s.registry.AddsAlike) {e seed : Node K}
    {deps : List (Node K)} {outcome : Except Fault (Gradients K)}
    (below : ∀ n ∈ e :: seed :: deps, Node.Below s.nodes n)
    (run : (s.registry.backpropFrom e deps seed).runIn s.workspace = (outcome, w)) :
    (∃ told, w.events.toList = s.workspace.events.toList ++ told ∧
      s.registry.Swept e deps seed s.workspace.events.toList (outcome.map fun _ => ()) told ∧
      ∀ id o incoming, .propagating id o incoming ∈ told → incoming.shape = o.result) ∧
    ∀ gradients, outcome = .ok gradients →
      (∀ (id : NodeId) leaf g, gradients.reached[id]? = some (leaf, g) →
        leaf.id = id ∧ leaf.isLeaf = true ∧ g.shape = leaf.shape) ∧
      ∀ leaf ∈ deps, ∀ g, gradients.get? leaf = some g → g.shape = leaf.shape := by
  rcases h.sane with ⟨pool, sane⟩
  rw [List.forall_mem_cons, List.forall_mem_cons] at below
  rcases below with ⟨root, upstream, leaves⟩
  have settled := Registry.backpropFrom_streams
    (Registry.constructs_of_honest sane.honest sane.composed) sane.held
    (Registry.routes_of_honest sane.honest) (root.mono sane.held)
    (Node.composed_of_below sane.composed root) (upstream.mono sane.held)
    (Node.composed_of_below sane.composed upstream) deps s.workspace ⟨sane.stock, .now s.workspace⟩
  have swept := Registry.backpropFrom_swept s.registry e seed deps s.workspace rfl
  have told_of {outcome : Except Fault Unit}
      (told : ToldSince s.workspace.events.toList (fun event => s.registry.AddsAlike → event.Upstream)
        w)
      (swept : Since s.workspace.events.toList
        (s.registry.Swept e deps seed s.workspace.events.toList outcome) w) :
      ∃ told, w.events.toList = s.workspace.events.toList ++ told ∧
        s.registry.Swept e deps seed s.workspace.events.toList outcome told ∧
        ∀ id o incoming, .propagating id o incoming ∈ told → incoming.shape = o.result := by
    rcases told with ⟨told, kind, events⟩
    rcases swept with ⟨trail, events', swept⟩
    obtain rfl : trail = told := List.append_cancel_left (events'.symm.trans events)
    exact ⟨trail, events, swept, fun id o incoming member => kind _ member adds⟩
  rw [Work.runIn] at run
  rw [run] at settled swept
  cases outcome with
  | error f =>
      refine ⟨told_of settled.told swept, ?_⟩
      rintro _ ⟨⟩
  | ok gradients =>
      rcases settled with ⟨more, pending, sub, streams⟩
      refine ⟨told_of streams.workspace.told swept, fun k same => ?_⟩
      obtain rfl := Except.ok.inj same
      refine ⟨fun id leaf g found => ?_, fun leaf hleaf g found => ?_⟩
      · rcases streams.flow.reached id leaf g found with ⟨same, isLeaf, gradient⟩
        exact ⟨same, isLeaf, gradient.shape adds⟩
      · have around := (leaves leaf hleaf).mono (List.Subset.trans sane.held sub)
        exact (streams.flow.of_get? streams.workspace.stock.coherent_given around found).shape adds

/-- Where two vectors are added to a vector, the gradient of a vector is one. -/
theorem Reachable.gradient_shapes_joined :
    let x : Node ℚ := .leaf 0 "x" .vec3
    let seed : Node ℚ := .constant 1 (.one .vec3)
    let e : Node ℚ := .application 2 join.signature [x, x]
    let s := joined .vec3
    s.Reachable ∧ s.registry.AddsAlike ∧ (∀ n ∈ [e, seed, x], Node.Below s.nodes n) ∧
      ∃ gradients w g, (s.registry.backpropFrom e [x] seed).runIn s.workspace = (.ok gradients, w) ∧
        gradients.get? x = some g ∧ g.shape = x.shape := by
  intro x seed e s
  have adds : s.registry.AddsAlike := by
    intro shape d found
    rcases Registry.candidate_of_resolve_eq_ok found with ⟨hd, _, operands⟩
    -- both operators take vectors, and both make a vector of them
    rcases List.mem_cons.1 hd with rfl | hd
    · exact (List.cons.inj operands).1
    · obtain rfl := List.mem_singleton.1 hd
      exact (List.cons.inj operands).1
  have below : ∀ n ∈ [e, seed, x], Node.Below s.nodes n := fun n => .of_mem
  have nonzero : seed.isZero = false := by decide +kernel
  rcases joining_backprop .vec3 (show seed.shape = .vec3 from rfl) nonzero s.workspace.events with
    ⟨gradients, w, run, reached⟩
  have shapes := ((joined_reachable .vec3).gradient_shapes adds below run).2 gradients rfl
  exact ⟨joined_reachable .vec3, adds, below, gradients, w, _, run, reached,
    shapes.2 x (List.mem_singleton_self x) _ reached⟩

/-- Where they are added to a scalar, the gradient of a vector is a scalar. -/
theorem gradient_of_other_shape :
    let x : Node ℚ := .leaf 0 "x" .vec3
    let seed : Node ℚ := .constant 1 (.one .vec3)
    let e : Node ℚ := .application 2 join.signature [x, x]
    let s := joined .scalar
    s.Reachable ∧ seed.shape = e.shape ∧ ∃ gradients w g,
      (s.registry.backpropFrom e [x] seed).runIn s.workspace = (.ok gradients, w) ∧
        gradients.get? x = some g ∧ g.shape ≠ x.shape := by
  intro x seed e s
  have nonzero : seed.isZero = false := by decide +kernel
  rcases joining_backprop .scalar (show seed.shape = .vec3 from rfl) nonzero s.workspace.events with
    ⟨gradients, w, run, reached⟩
  exact ⟨joined_reachable .scalar, rfl, gradients, w, _, run, reached, by decide⟩

end Session

end SymbolicLinalg
