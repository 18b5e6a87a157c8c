import SymbolicLinalg.Proofs.Parallel
import SymbolicLinalg.Proofs.Relevance

/-!
# Conservation — an extension leaves the standard operators as they were

Whatever a pass makes of an expression of the standard operators with the standard registry, it makes
with any extension of it: the operators that are added have other names or take other operands, so
nothing that a standard hook asks for resolves to one of them.

Sweeps go through the same nodes in both runs, and these are from before the runs.  So what has reached
a node is kept under the same identity in both.

* `Comparison.Flows`: what has reached the nodes in two sweeps;
* `Alongside.backpropFrom_mirrors`: sweeps, node by node;
* `Standard.extension_conserves`: all passes.
-/

namespace SymbolicLinalg

open Mirrors Comparison

variable {K : Type} {c : Comparison} {n m : Node K} {relevant : Std.HashSet NodeId}

/-! ## Agreement -/

/-- If work comes to something in a workspace, other work in another workspace comes to something that
reads the same. -/
def Work.Agree {α β : Type} (read : α → β) (w w' : Workspace K) (work work' : Work K α) : Prop :=
  ∀ a, (work.runIn w).1 = .ok a → ∃ a', (work'.runIn w').1 = .ok a' ∧ read a' = read a

theorem Mirrors.agree {α β : Type} {rel : α → α → Prop} {read : α → β} {w w' : Workspace K}
    {work work' : Work K α} (h : Mirrors c.Keeps work work' rel) (keeps : c.Keeps w w')
    (reads : ∀ a a', rel a a' → read a' = read a) : Work.Agree read w w' work work' := by
  intro a run
  rcases h.exists_of_run_eq_ok keeps (Prod.ext run rfl) with ⟨a', v', run', related, _⟩
  exact ⟨a', congrArg Prod.fst run', reads a a' related⟩

/-- The trees of the gradients of leaves. -/
def Gradients.trees (g : Gradients K) (leaf : Node K) : Option (Tree K) :=
  (g.get? leaf).map Node.tree

/-! ## Sweeps -/

namespace Comparison

/-- What has reached a node in the one sweep is the counterpart of what has reached it in the other. -/
structure Flows (c : Comparison) (flow flow' : Flow K) : Prop where
  pending (id : NodeId) : Option.Rel c.Matches flow.pending[id]? flow'.pending[id]?
  gradients (x : Node K) : Option.Rel c.Matches (flow.gradients.get? x) (flow'.gradients.get? x)

namespace Flows

variable {flow flow' : Flow K}

theorem empty : c.Flows (⟨∅, .empty⟩ : Flow K) ⟨∅, .empty⟩ where
  pending := by simp
  gradients x := by
    rw [Gradients.get?_empty]
    exact .none

theorem insert_pending (h : c.Flows flow flow') (id : NodeId) (total : c.Matches n m) :
    c.Flows { flow with pending := flow.pending.insert id n }
      { flow' with pending := flow'.pending.insert id m } where
  pending i := by
    rw [Std.HashMap.getElem?_insert, Std.HashMap.getElem?_insert]
    exact relates_ite rfl (.some total) (h.pending i)
  gradients := h.gradients

theorem insert_gradient (h : c.Flows flow flow') {y y' : Node K} (same : y.id = y'.id)
    (total : c.Matches n m) :
    c.Flows { flow with gradients := flow.gradients.insert y n }
      { flow' with gradients := flow'.gradients.insert y' m } where
  pending := h.pending
  gradients x := by
    rw [Gradients.get?_insert, Gradients.get?_insert, same]
    split
    · exact .some total
    · exact h.gradients x

theorem erase (h : c.Flows flow flow') (id : NodeId) :
    c.Flows { flow with pending := flow.pending.erase id }
      { flow' with pending := flow'.pending.erase id } where
  pending i := by
    rw [Std.HashMap.getElem?_erase, Std.HashMap.getElem?_erase]
    exact relates_ite rfl .none (h.pending i)
  gradients := h.gradients

end Flows

/-- Only nodes from before the runs are relevant, and these have the same identities. -/
theorem Pairs.relevant_iff {i j : NodeId} (ids : c.Pairs i j)
    (old : ∀ id, relevant.contains id = true → id < c.first ∧ id < c.second) :
    relevant.contains i = true ↔ relevant.contains j = true := by
  rcases ids with ⟨rfl, _, _⟩ | ⟨k, rfl, rfl⟩
  · exact Iff.rfl
  · refine iff_of_false (fun found => ?_) fun found => ?_
    · exact absurd (old _ found).1 (Nat.not_lt.2 (Nat.le_add_right _ k))
    · exact absurd (old _ found).2 (Nat.not_lt.2 (Nat.le_add_right _ k))

theorem Pairs.eq_of_lt {i j : NodeId} (ids : c.Pairs i j) (lt : i < c.first) : i = j := by
  rcases ids with ⟨same, _, _⟩ | ⟨k, rfl, rfl⟩
  · exact same
  · exact absurd lt (Nat.not_lt.2 (Nat.le_add_right _ k))

end Comparison

variable [Arithmetic K] [Numeral K]

namespace Alongside

variable {extended : Registry K} (h : Alongside c extended)
  (old : ∀ id, relevant.contains id = true → id < c.first ∧ id < c.second)

include h

theorem accumulate_mirrors {total? total?' : Option (Node K)}
    (total : Option.Rel c.Matches total? total?') (contribution : c.Matches n m) :
    Mirrors c.Keeps (Registry.standard.accumulate total? n) (extended.accumulate total?' m)
      c.Matches := by
  cases total with
  | none => exact .value contribution
  | some before => exact h.apply_mirrors "+" (.cons before (.cons contribution .nil))

include old

theorem contribute_mirrors {p p' : Contribution K} (operand : c.Matches p.operand p'.operand)
    (gradient : c.Matches p.gradient p'.gradient) :
    Mirrors (Beside c.Keeps c.Flows) (Registry.standard.contribute relevant p)
      (extended.contribute relevant p') fun _ _ => True := by
  rw [Registry.contribute, Registry.contribute]
  refine Mirrors.ite (by rw [gradient.shape, operand.shape]) (fun _ => .stop .refuse_within)
    fun _ => ?_
  refine (record_mirrors _ _).within.bind fun _ _ _ => ?_
  refine Mirrors.ite (operand.pairs.relevant_iff old) (fun found => ?_) fun _ => .value trivial
  -- the operand takes part, so it is from before the runs and has one identity in both
  have same := operand.pairs.eq_of_lt (old _ found).1
  refine Mirrors.read.bind fun s s' related => ?_
  rcases s with ⟨w, flow⟩
  rcases s' with ⟨w', flow'⟩
  refine Mirrors.ite (by rw [operand.isLeaf]) (fun _ => ?_) fun _ => ?_
  · have before := related.2.gradients p.operand
    refine (h.accumulate_mirrors ?_ gradient).within.bind fun total total' sum => ?_
    · rwa [flow'.gradients.get?_congr same] at before
    · exact .update fun _ _ now => ⟨now.1, now.2.insert_gradient same sum⟩
  · have before := related.2.pending p.operand.id
    refine (h.accumulate_mirrors ?_ gradient).within.bind fun total total' sum => ?_
    · rwa [← same]
    · rw [← same]
      exact .update fun _ _ now => ⟨now.1, now.2.insert_pending _ sum⟩

/-- One node is visited, the same in both sweeps. -/
theorem propagate_mirrors (itself : c.Matches n n) :
    Mirrors (Beside c.Keeps c.Flows) (Registry.standard.propagate relevant n)
      (extended.propagate relevant n) fun _ _ => True := by
  cases itself with
  | constant | leaf => exact .value trivial
  | @application id _ s operands _ ids known parts =>
      rw [Registry.propagate, Registry.propagate]
      have taken : Mirrors (Beside c.Keeps c.Flows) (Registry.takePending? id : Sweep K _)
          (Registry.takePending? id) (Option.Rel c.Matches) :=
        .take fun _ _ related => ⟨related.2.pending id, related.1, related.2.erase id⟩
      refine taken.bind fun incoming? incoming?' related => ?_
      cases related with
      | none => exact .value trivial
      | @some g g' incoming =>
          refine Mirrors.ite (by rw [incoming.isZero]) (fun _ => (record_mirrors _ _).within)
            fun _ => ?_
          -- both registries have the hooks of the standard operator for it
          rw [h.hooks_eq known]
          cases hook : ((Registry.standard : Registry K).hooks s).gradient with
          | none => exact .refuse_within
          | some rule =>
              rcases Standard.operator_of_hook (·.gradient) rfl hook with ⟨o, _, hook⟩
              refine (record_mirrors _ _).within.bind fun _ _ _ => ?_
              have like : Standard.Contributing ⟨c.Matches, fun p p' =>
                  c.Matches p.operand p'.operand ∧ c.Matches p.gradient p'.gradient,
                  fun _ _ => True⟩ c.Matches :=
                ⟨Matches.resembles, fun _ _ same => same, fun _ _ _ _ => And.intro, h.generator_matches⟩
              exact (o.accords_gradient like parts incoming hook).run_mirrors
                (fun k k' same => (h.make_makes k k' same).within)
                (fun _ _ pair => h.contribute_mirrors old pair.1 pair.2) fun _ => .refuse_within

omit old

/-- Two sweeps over one expression, whose seeds are counterparts. -/
theorem backpropFrom_mirrors {e seed seed' : Node K} (known : e.AppliesOnly c.known)
    (first : e.Older c.first) (second : e.Older c.second) (deps : List (Node K))
    (seeds : c.Matches seed seed') :
    Mirrors c.Keeps (Registry.standard.backpropFrom e deps seed)
      (extended.backpropFrom e deps seed') fun gradients gradients' =>
        ∀ x, Option.Rel c.Matches (gradients.get? x) (gradients'.get? x) := by
  rw [Registry.backpropFrom, Registry.backpropFrom]
  refine Mirrors.check.bind fun _ _ _ => ?_
  dsimp only
  refine Mirrors.ite (by rw [seeds.shape]) (fun _ => .stop .refuse)
    fun _ => .starting (Flows.empty (c := c)) ?_
  have old (id : NodeId) (found : (Registry.relevantTo e deps).contains id = true) :
      id < c.first ∧ id < c.second := by
    rcases Registry.exists_mem_of_relevantNodes found with ⟨n, hn, rfl⟩
    have below := Node.reaches_of_mem_postOrder hn
    exact ⟨first n below, second n below⟩
  -- the sweeps visit one list of nodes, each its own counterpart
  have itself (n : Node K) (below : e.Reaches n) : c.Matches n n :=
    .refl (known.of_reaches below) (first.of_reaches below) (second.of_reaches below)
  refine (h.contribute_mirrors old (itself e (.refl e)) seeds).bind fun _ _ _ => ?_
  have swept : Mirrors (Beside c.Keeps c.Flows)
      (e.postOrder.reverse.forM (Registry.standard.propagate (Registry.relevantTo e deps)))
      (e.postOrder.reverse.forM (extended.propagate (Registry.relevantTo e deps)))
      fun _ _ => True := by
    refine .forM fun n hn => h.propagate_mirrors old (itself n ?_)
    exact Node.reaches_of_mem_postOrder (List.mem_reverse.1 hn)
  refine swept.bind fun _ _ _ => Mirrors.read.bind fun s s' related => .value ?_
  exact related.2.gradients

end Alongside

/-! ## Runs -/

/-- An expression of standard operators that was made before two runs begin. -/
structure Node.Shared (w w' : Workspace K) (n : Node K) : Prop where
  standard : n.AppliesOnly (Registry.standard : Registry K).Knows
  older : n.Older w.nextId
  older' : n.Older w'.nextId

/-- Whatever a pass makes of an expression with the one registry, it makes of it with the other. -/
structure Registry.Conserves (r extended : Registry K) (w w' : Workspace K) (e : Node K) : Prop where
  lower : Work.Agree Node.tree w w' (r.lower e) (extended.lower e)
  fold : Work.Agree Node.tree w w' (r.fold e) (extended.fold e)
  substitute (bindings : List (Binding K)) :
    (∀ b ∈ bindings, b.leaf.Shared w w' ∧ b.replacement.Shared w w') →
    Work.Agree Node.tree w w' (r.substitute e bindings) (extended.substitute e bindings)
  derivative (leaf : Node K) :
    Work.Agree Node.tree w w' (r.derivative e leaf) (extended.derivative e leaf)
  backprop (deps : List (Node K)) :
    Work.Agree Gradients.trees w w' (r.backprop e deps) (extended.backprop e deps)
  backpropFrom (deps : List (Node K)) (seed : Node K) : seed.Shared w w' →
    Work.Agree Gradients.trees w w' (r.backpropFrom e deps seed) (extended.backpropFrom e deps seed)

namespace Standard

/-- Operators of other names or for other operands change nothing that passes make of expressions of
the standard operators. -/
theorem extension_conserves {extended : Registry K} (extends_ : Registry.standard.Extends extended)
    {w w' : Workspace K} (late : (Workspace.standard : Workspace K).nextId ≤ w.nextId)
    (late' : (Workspace.standard : Workspace K).nextId ≤ w'.nextId) {e : Node K}
    (shared : e.Shared w w') : Registry.standard.Conserves extended w w' e := by
  let c : Comparison := ⟨w.nextId, w'.nextId, (Registry.standard : Registry K).Knows⟩
  have h : Alongside c extended :=
    ⟨extends_, fun _ => Iff.rfl, fun i lt =>
      .inl ⟨rfl, Nat.lt_of_lt_of_le lt late, Nat.lt_of_lt_of_le lt late'⟩⟩
  have keeps : c.Keeps w w' := ⟨0, rfl, rfl⟩
  have itself {n : Node K} (shared : n.Shared w w') : c.Matches n n :=
    .refl shared.standard shared.older shared.older'
  have trees (g g' : Gradients K) (related : ∀ x, Option.Rel c.Matches (g.get? x) (g'.get? x)) :
      g'.trees = g.trees :=
    funext fun x => Matches.map_tree (related x)
  have visiting {visit visit' : Node K → Pass K (Node K)} (visits : c.Visits visit visit')
      {memo : Memo K} (start : c.Remembers memo memo) :
      Mirrors c.Keeps (Work.starting memo (visit e)) (Work.starting memo (visit' e)) c.Matches :=
    .starting start (visits e e (itself shared))
  have sweeping (deps : List (Node K)) {seed seed' : Node K} (seeds : c.Matches seed seed') :=
    h.backpropFrom_mirrors shared.standard shared.older shared.older' deps seeds
  have bound {bindings : List (Binding K)}
      (given : ∀ b ∈ bindings, b.leaf.Shared w w' ∧ b.replacement.Shared w w') :
      c.Remembers (Registry.bindingMemo bindings) (Registry.bindingMemo bindings) :=
    remembers_bindingMemo fun b hb => ⟨(itself (given b hb).1).pairs, itself (given b hb).2⟩
  exact {
    lower := (visiting h.lowerNext_visits remembers_empty).agree keeps fun _ _ => Matches.tree
    fold := (visiting h.foldNode_visits remembers_empty).agree keeps fun _ _ => Matches.tree
    substitute bindings given :=
      (Mirrors.check.bind fun _ _ _ => visiting h.substituteNode_visits (bound given)).agree keeps
        fun _ _ => Matches.tree
    derivative leaf :=
      (Mirrors.check.bind fun _ _ _ => visiting (h.deriveNext_visits leaf) remembers_empty).agree
        keeps fun _ _ => Matches.tree
    backprop deps :=
      ((newConstant_mirrors _).bind fun _ _ seeds => sweeping deps seeds).agree keeps trees
    backpropFrom deps seed given := (sweeping deps (itself given)).agree keeps trees }

/-- Beside an operator that builds vectors of symbolic reals, passes make the same of a rotation. -/
theorem extension_conserves_rotation :
    let a : Node Float := .leaf 4 "a" .scalar
    let rotation : Node Float := .application 5 ⟨.mat33, "mat33RotationZ", [.scalar]⟩ [a]
    (Registry.standard : Registry Float).Extends withSymbolicVector ∧
      rotation.Shared ⟨6, #[]⟩ ⟨7, #[]⟩ ∧
      Registry.standard.Conserves withSymbolicVector ⟨6, #[]⟩ ⟨7, #[]⟩ rotation := by
  intro a rotation
  have only : rotation.AppliesOnly (Registry.standard : Registry Float).Knows :=
    Node.appliesOnly_application.2 ⟨knows_iff.2 ⟨.axisRotation 0 .planar rfl, rfl⟩,
      List.forall_mem_singleton.2 (Node.appliesOnly_of_plain rfl)⟩
  have older : rotation.Older 6 := by
    intro x below
    rcases Node.reaches_iff.1 below with rfl | ⟨m, operand, below⟩
    · decide
    · obtain rfl := List.mem_singleton.1 operand
      obtain rfl := below.eq_of_operands_eq_nil rfl
      decide
  have shared : rotation.Shared ⟨6, #[]⟩ ⟨7, #[]⟩ := ⟨only, older, older.mono (by decide)⟩
  exact ⟨extends_withSymbolicVector, shared,
    extension_conserves extends_withSymbolicVector (by decide) (by decide) shared⟩

end Standard

end SymbolicLinalg
