import SymbolicLinalg.Proofs.Operation
import SymbolicLinalg.Proofs.Rational

/-!
# Session — everything that is done with a registry

In a session operators are defined and operations are carried out, in any order and any number of
times, over expressions that have been made in the session.  Passes that lower or differentiate may be
kept open: they remember what they have found out, while other things are done.  Operations may be
given up on the way.

* `Session.Step`: one thing that is done;
* `Session.Sane`: the invariant, which every step keeps;
* `Session.Reachable.sound_shapes`: every expression of a session is well formed, and whatever is made
  of it has the shape that it should have.
-/

namespace SymbolicLinalg

variable {K : Type}

/-- Every application in the graph is of an operator of the registry, with operands of the shapes
that the operator takes, and has the shape of its result. -/
def Node.Sound (r : Registry K) (n : Node K) : Prop :=
  ∀ id s operands, n.Reaches (.application id s operands) →
    ∃ d ∈ r.definitions, d.signature = s ∧ operands.map shape = d.signature.operands ∧
      (application id s operands).shape = d.signature.result

theorem Node.Composed.sound {atoms : Node K → Prop} {r : Registry K} {n : Node K}
    (h : n.Composed atoms r) : n.Sound r := by
  intro id s operands below
  rcases h.applied id s operands below with ⟨⟨d, hd, rfl⟩, shapes⟩
  exact ⟨d, hd, rfl, shapes, rfl⟩

/-! ## Sessions -/

/-- A pass that is kept open: it differentiates by a variable, or else it lowers. -/
structure OpenPass (K : Type) where
  wrt? : Option (Node K)
  memo : Memo K

/-- What the pass makes of a node. -/
def OpenPass.visit [Arithmetic K] (r : Registry K) (pass : OpenPass K) (n : Node K) :
    Pass K (Node K) :=
  match pass.wrt? with
  | none => r.lowerNext n
  | some wrt => r.deriveNext wrt n

structure Session (K : Type) where
  registry : Registry K
  workspace : Workspace K
  /-- Whatever has been handed out. -/
  nodes : List (Node K)
  passes : List (OpenPass K)

namespace Session

variable [Arithmetic K] [Numeral K]

/-- One thing that is done in a session, whether or not it is given up. -/
inductive Step : Session K → Session K → Prop where
  | define {s : Session K} {d : Definition K} {outcome : Except Fault (Registry K)}
      {w : Workspace K} :
      d.Honest s.nodes → (s.registry.define d).runIn s.workspace = (outcome, w) →
      Step s { s with registry := outcome.toOption.getD s.registry, workspace := w }
  | perform {s : Session K} {op : Operation K} {outcome : Except Fault (List (Node K))}
      {w : Workspace K} :
      op.Allowed s.registry → (∀ n ∈ op.operands, Node.Below s.nodes n) →
      (op.run s.registry).runIn s.workspace = (outcome, w) →
      Step s { s with workspace := w, nodes := outcome.toOption.getD [] ++ s.nodes }
  | start {s : Session K} {wrt? : Option (Node K)} :
      (∀ x ∈ wrt?, Node.Below s.nodes x) →
      Step s { s with passes := ⟨wrt?, ∅⟩ :: s.passes }
  | visit {s : Session K} {before after : List (OpenPass K)} {pass : OpenPass K} {n : Node K}
      {outcome : Except Fault (Node K)} {w : Workspace K} {memo : Memo K} :
      s.passes = before ++ pass :: after → Node.Below s.nodes n →
      (pass.visit s.registry n).run.run (s.workspace, pass.memo) = (outcome, (w, memo)) →
      Step s { s with
        workspace := w
        nodes := outcome.toOption.toList ++ s.nodes
        passes := before ++ { pass with memo } :: after }

/-- A session starts without operators and expressions. -/
inductive Reachable : Session K → Prop where
  | start (w : Workspace K) : Reachable ⟨.empty, w, [], []⟩
  | step {s s' : Session K} : Reachable s → s.Step s' → Reachable s'

/-! ## The invariant -/

/-- The hooks are honest and the expressions composed.  Beside these there may be nodes that have not
been handed out, but are remembered by passes. -/
structure Sane (s : Session K) (pool : List (Node K)) : Prop where
  honest : ∀ d ∈ s.registry.definitions, d.Honest s.nodes
  composed : ∀ n ∈ s.nodes, n.Composed anyNode s.registry
  held : s.nodes ⊆ pool
  stock : Stock Registry.anyName pool [] s.workspace.nextId
  passes : ∀ pass ∈ s.passes, (∀ x ∈ pass.wrt?, Node.Below s.nodes x) ∧
    Recalls (alike anyNode s.registry) Registry.anyName pool [] (s.workspace, pass.memo)

variable {s s' : Session K} {pool more made : List (Node K)} {w : Workspace K}

omit [Numeral K] in
theorem Sane.visit_triple (sane : s.Sane pool) {pass : OpenPass K} (hpass : pass ∈ s.passes)
    {n : Node K} (below : Node.Below s.nodes n) :
    Triple (Recalls (alike anyNode s.registry) Registry.anyName pool []) (pass.visit s.registry n)
      (Finds (alike anyNode s.registry) Registry.anyName pool [] n)
      (Kept (alike anyNode s.registry) pool) := by
  have constructs := Registry.constructs_of_honest sane.honest sane.composed
  have composed := Node.composed_of_below sane.composed below
  have around : Node.Below (pool ++ []) n := by
    rw [List.append_nil]
    exact below.mono sane.held
  rw [OpenPass.visit]
  cases known : pass.wrt? with
  | none =>
      exact Registry.lowerNext_alike constructs sane.held (Registry.expands_of_honest sane.honest)
        composed pool (List.Subset.refl pool) around
  | some wrt =>
      have hwrt := (sane.passes pass hpass).1 wrt known
      exact Registry.deriveNext_alike constructs sane.held
        (Registry.derives_of_honest sane.honest hwrt) composed pool (List.Subset.refl pool) around

omit [Arithmetic K] [Numeral K] in
/-- More may be around, of which something is handed out. -/
theorem Sane.grow (sane : s.Sane pool) (sub : pool ⊆ more)
    (stock : Stock Registry.anyName more [] w.nextId)
    (handed : ∀ n ∈ made, n ∈ more ∧ n.Composed anyNode s.registry) :
    Session.Sane { s with workspace := w, nodes := made ++ s.nodes } more where
  honest d hd := (sane.honest d hd).mono (List.subset_append_right made s.nodes)
  composed := List.forall_mem_append.2 ⟨fun n hn => (handed n hn).2, sane.composed⟩
  held := List.append_subset.2 ⟨fun n hn => (handed n hn).1, List.Subset.trans sane.held sub⟩
  stock := stock
  passes pass hpass := by
    rcases sane.passes pass hpass with ⟨known, recalls⟩
    refine ⟨fun x hx => ?_, recalls.mono sub stock⟩
    exact (known x hx).mono (List.subset_append_right made s.nodes)

omit [Arithmetic K] [Numeral K] in
theorem Sane.keep (sane : s.Sane pool) (sub : pool ⊆ more)
    (stock : Stock Registry.anyName more [] w.nextId) :
    Session.Sane { s with workspace := w } more := by
  have none : ∀ n ∈ ([] : List (Node K)), n ∈ more ∧ n.Composed anyNode s.registry :=
    fun n hn => absurd hn List.not_mem_nil
  exact sane.grow sub stock none

omit [Arithmetic K] [Numeral K] in
/-- What one of the passes remembers may be replaced. -/
theorem Sane.remember (sane : s.Sane pool) {before after : List (OpenPass K)} {pass : OpenPass K}
    {memo : Memo K} (parts : s.passes = before ++ pass :: after)
    (recalls : Recalls (alike anyNode s.registry) Registry.anyName pool [] (s.workspace, memo)) :
    Session.Sane { s with passes := before ++ { pass with memo } :: after } pool where
  honest := sane.honest
  composed := sane.composed
  held := sane.held
  stock := sane.stock
  passes := by
    have passes := sane.passes
    rw [parts, List.forall_mem_append, List.forall_mem_cons] at passes
    rcases passes with ⟨first, here, last⟩
    exact List.forall_mem_append.2 ⟨first, List.forall_mem_cons.2 ⟨⟨here.1, recalls⟩, last⟩⟩

omit [Arithmetic K] [Numeral K] in
/-- Defining an operator keeps all that is known of the others. -/
theorem Sane.define (sane : s.Sane pool) {d : Definition K} {extended : Registry K}
    (honest : d.Honest s.nodes) (registered : s.registry.register d = .ok extended)
    (stock : Stock Registry.anyName pool [] w.nextId) :
    Session.Sane { s with registry := extended, workspace := w } pool := by
  have listed := Registry.definitions_of_register registered
  have sub : s.registry.definitions ⊆ extended.definitions :=
    listed ▸ List.subset_append_left _ _
  constructor
  · rw [listed]
    exact List.forall_mem_append.2 ⟨sane.honest, List.forall_mem_singleton.2 honest⟩
  · exact fun n hn => (sane.composed n hn).mono sub
  · exact sane.held
  · exact stock
  · intro pass hpass
    rcases sane.passes pass hpass with ⟨known, recalls⟩
    refine ⟨known, stock, fun id m found => ?_⟩
    -- a memo speaks of the registry only where it says that nodes are composed
    rcases recalls.memo id m found with ⟨n, same, below, around, composed, shape⟩
    exact ⟨n, same, below, around, composed.mono sub, shape⟩

theorem Sane.step (sane : s.Sane pool) (step : s.Step s') : ∃ more, s'.Sane more := by
  cases step with
  | @define d outcome w honest run =>
      have defines : Triple (fun w => Stock Registry.anyName pool [] w.nextId)
          (s.registry.define d)
          (fun extended w => s.registry.register d = .ok extended ∧
            Stock Registry.anyName pool [] w.nextId)
          fun _ w => Stock Registry.anyName pool [] w.nextId :=
        Triple.bind (.ofExcept (fun _ found _ stock => ⟨found, stock⟩) fun _ _ _ => id)
          fun _ => .bind (m := fun _ w => _ ∧ _) (.record fun _ => id) fun _ => .value fun _ => id
      have settled := defines s.workspace sane.stock
      rw [Work.runIn] at run
      rw [run] at settled
      cases outcome with
      | error f => exact ⟨pool, sane.keep (List.Subset.refl pool) settled⟩
      | ok extended => exact ⟨pool, sane.define honest settled.1 settled.2⟩
  | @perform op outcome w allowed below run =>
      have settled := Operation.run_triple sane.honest sane.composed sane.held allowed below
        s.workspace sane.stock
      rw [Work.runIn] at run
      rw [run] at settled
      cases outcome with
      | error f => exact ⟨pool, sane.keep (List.Subset.refl pool) settled⟩
      | ok made =>
          refine ⟨made ++ pool, sane.grow (List.subset_append_right made pool) settled.2.stock ?_⟩
          exact fun n hn => ⟨List.mem_append_left pool hn, settled.2.composed n hn⟩
  | start known =>
      refine ⟨pool, sane.honest, sane.composed, sane.held, sane.stock, ?_⟩
      exact List.forall_mem_cons.2 ⟨⟨known, .empty sane.stock⟩, sane.passes⟩
  | @visit before after pass n outcome w memo parts below run =>
      have hpass : pass ∈ s.passes := parts ▸ List.mem_append_cons_self
      have settled := sane.visit_triple hpass below (s.workspace, pass.memo)
        (sane.passes pass hpass).2
      rw [run] at settled
      cases outcome with
      | error f =>
          -- also a pass that was given up has remembered what it had found out by then
          rcases settled with ⟨more, sub, recalls⟩
          exact ⟨more, (sane.keep sub recalls.stock).remember parts recalls⟩
      | ok m =>
          rcases settled with ⟨more, sub, ⟨around, composed, _⟩, recalls⟩
          have stock := recalls.stock.cons_of_below around
          -- what is handed out joins the pool as a node of its own
          have wider := List.subset_cons_self m more
          have grown := sane.grow (List.Subset.trans sub wider) stock
            (List.forall_mem_singleton.2 ⟨List.mem_cons_self, composed⟩)
          exact ⟨m :: more, grown.remember parts (recalls.mono wider stock)⟩

theorem Reachable.sane (h : s.Reachable) : ∃ pool, s.Sane pool := by
  induction h with
  | start w =>
      refine ⟨[], fun d hd => absurd hd List.not_mem_nil, fun n hn => absurd hn List.not_mem_nil,
        List.Subset.refl [], ⟨?_, ?_, ?_⟩, fun pass hpass => absurd hpass List.not_mem_nil⟩
      · exact fun n hn => absurd hn List.not_mem_nil
      · exact fun n hn => absurd hn List.not_mem_nil
      · exact fun n hn => absurd hn List.not_mem_nil
  | step _ step ih =>
      rcases ih with ⟨pool, sane⟩
      exact sane.step step

/-- In every session, whatever the hooks do: all applications that can be reached from what has been
handed out have operands of the shapes that their operators take; an application has the shape of the
result of the operator that was resolved; and what a pass makes of an expression has its shape. -/
theorem Reachable.sound_shapes (h : s.Reachable) :
    (∀ n ∈ s.nodes, n.Sound s.registry) ∧
    (∀ (op : Operation K) made w, op.Allowed s.registry →
      (∀ n ∈ op.operands, Node.Below s.nodes n) →
      (op.run s.registry).runIn s.workspace = (.ok made, w) → op.Promise s.registry made) ∧
    ∀ pass ∈ s.passes, ∀ n m state, Node.Below s.nodes n →
      (pass.visit s.registry n).run.run (s.workspace, pass.memo) = (.ok m, state) →
        m.shape = n.shape := by
  rcases h.sane with ⟨pool, sane⟩
  refine ⟨fun n hn => (sane.composed n hn).sound, ?_, ?_⟩
  · intro op made w allowed below run
    exact ((Operation.run_triple sane.honest sane.composed sane.held allowed below).of_runIn_eq_ok
      sane.stock run).1
  · intro pass hpass n m state below run
    have settled := sane.visit_triple hpass below (s.workspace, pass.memo) (sane.passes pass hpass).2
    rw [run] at settled
    rcases settled with ⟨_, _, form, _⟩
    exact form.2.2

/-- A session with an operator that folds to the wrong shape, and a lowering pass that is kept open. -/
theorem Reachable.sound_shapes_defiant :
    let x : Node ℚ := .leaf 0 "x" .scalar
    let defiant : Definition ℚ := ⟨⟨.scalar, "defy", [.scalar]⟩, { fold := some fun _ => .zero .vec3 }⟩
    let n : Node ℚ := .application 1 defiant.signature [x]
    let s : Session ℚ :=
      ⟨⟨[defiant]⟩, ⟨2, #[.registered defiant.signature defiant.hooks.present]⟩, [n, x], [⟨none, ∅⟩]⟩
    s.Reachable ∧ n.Sound s.registry ∧
      (∀ m w, (s.registry.fold n).runIn s.workspace = (.ok m, w) → m.shape = .scalar) ∧
      ∀ m state, (s.registry.lowerNext n).run.run (s.workspace, ∅) = (.ok m, state) →
        m.shape = .scalar := by
  intro x defiant n s
  have honest : defiant.Honest [] := ⟨nofun, nofun, nofun, nofun, nofun⟩
  -- the operator is defined, `x` and `n` are made, and a pass is opened
  have reachable : s.Reachable := by
    refine .step (.step (.step (.step (.start ⟨0, #[]⟩) (.define honest rfl))
      (.perform (show Operation.Allowed _ (.make (.leaf "x" .scalar)) from trivial) nofun rfl))
      (.perform (show Operation.Allowed _ (.make (.apply "defy" [x])) from trivial) ?_ rfl))
      (.start nofun)
    exact List.forall_mem_singleton.2 (.of_mem List.mem_cons_self)
  have listed : n ∈ s.nodes := List.mem_cons_self
  rcases reachable.sound_shapes with ⟨sound, keeps, passes⟩
  refine ⟨reachable, sound n listed, fun m w run => ?_, fun m state run => ?_⟩
  · have returned : (Operation.run s.registry (.fold n)).runIn s.workspace = (.ok [m], w) := by
      rw [Operation.run, Work.runIn_bind, run]
      rfl
    rcases keeps (.fold n) [m] w trivial (List.forall_mem_singleton.2 (.of_mem listed)) returned with
      ⟨k, same, shape⟩
    rwa [(List.cons.inj same).1]
  · exact passes ⟨none, ∅⟩ List.mem_cons_self n m state (.of_mem listed) run

end Session

end SymbolicLinalg
