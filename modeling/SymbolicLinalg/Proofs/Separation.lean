import SymbolicLinalg.Proofs.Delivery
import SymbolicLinalg.Proofs.Renaming
import SymbolicLinalg.Proofs.Retracing

/-!
# Separation — a gradient does not depend on what else is asked for

A sweep that is asked for the gradients of fewer leaves fires fewer hooks and drops contributions that
another sweep adds up.  Both sweeps go over the same nodes in the same order.  At a node above one of
the fewer leaves both do the same, up to the identities of what they make; at any other node the
longer sweep works alone, and nothing that it adds up there gets to the fewer leaves.

* `Shares`: the invariant, for what both sweeps hold;
* `contribute_retraced`, `propagate_retraced`: one contribution and one node keep it;
* `backprop_separates`: the gradients of the fewer leaves.
-/

namespace SymbolicLinalg

variable {K : Type} {old : NodeId} {u v : Renaming K old} {e m n g g' total total' : Node K}
  {deps fewer : List (Node K)} {flow flow' : Flow K}

/-! ## What is held -/

/-- What two sweeps hold for some leaves and the nodes above them corresponds.  The second sweep holds
nothing for other nodes. -/
structure Shares (e : Node K) (fewer : List (Node K)) (u : Renaming K old) (flow flow' : Flow K) :
    Prop where
  pending : ∀ n, e.Reaches n → Above fewer n →
    Option.Rel u.nodes flow.pending[n.id]? flow'.pending[n.id]?
  idle : ∀ n, e.Reaches n → ¬ Above fewer n → flow'.pending[n.id]? = none
  reached : ∀ x ∈ fewer, Option.Rel u.nodes (flow.gradients.get? x) (flow'.gradients.get? x)

namespace Shares

theorem empty : Shares e fewer u ⟨∅, .empty⟩ ⟨∅, .empty⟩ where
  pending n _ _ := by
    dsimp only
    rw [Std.HashMap.getElem?_empty]
    exact .none
  idle n _ _ := Std.HashMap.getElem?_empty
  reached x _ := by
    dsimp only
    rw [Gradients.get?_empty]
    exact .none

variable (h : Shares e fewer u flow flow')

include h

theorem mono (later : u ≤ v) : Shares e fewer v flow flow' where
  pending n below above := optionRel_imp (h.pending n below above) later
  idle := h.idle
  reached x hx := optionRel_imp (h.reached x hx) later

/-- Both sweeps visit a node. -/
theorem erase (id : NodeId) :
    Shares e fewer u { flow with pending := flow.pending.erase id }
      { flow' with pending := flow'.pending.erase id } where
  pending n below above := by
    dsimp only
    rw [Std.HashMap.getElem?_erase, Std.HashMap.getElem?_erase]
    split
    · exact .none
    · exact h.pending n below above
  idle n below idle := by
    dsimp only
    rw [Std.HashMap.getElem?_erase]
    split
    · rfl
    · exact h.idle n below idle
  reached := h.reached

/-- Both sweeps add to the gradient of a leaf. -/
theorem insert_gradient (m : Node K) (related : u.nodes total total') :
    Shares e fewer u { flow with gradients := flow.gradients.insert m total }
      { flow' with gradients := flow'.gradients.insert m total' } where
  pending := h.pending
  idle := h.idle
  reached x hx := by
    rw [Gradients.get?_insert, Gradients.get?_insert]
    split
    · exact .some related
    · exact h.reached x hx

variable (coherent : Node.Coherent (e :: fewer)) (below : e.Reaches m)

include coherent below

/-- Both sweeps add to what is pending for a node. -/
theorem insert_pending (above : Above fewer m) (related : u.nodes total total') :
    Shares e fewer u { flow with pending := flow.pending.insert m.id total }
      { flow' with pending := flow'.pending.insert m.id total' } where
  pending n belowN aboveN := by
    dsimp only
    rw [Std.HashMap.getElem?_insert, Std.HashMap.getElem?_insert]
    split
    · exact .some related
    · exact h.pending n belowN aboveN
  idle n belowN idle := by
    have differs : m.id ≠ n.id := fun same => idle (coherent.eq_of_reaches below belowN same ▸ above)
    dsimp only
    rw [Std.HashMap.getElem?_insert, if_neg (by simpa using differs)]
    exact h.idle n belowN idle
  reached := h.reached

variable (idle : ¬ Above fewer m)

include idle

/-- The first sweep adds to the gradient of another leaf. -/
theorem insert_gradient_alone :
    Shares e fewer u { flow with gradients := flow.gradients.insert m total } flow' where
  pending := h.pending
  idle := h.idle
  reached x hx := by
    have differs : m.id ≠ x.id := by
      intro same
      have := coherent e List.mem_cons_self x (List.mem_cons_of_mem e hx) m x below (.refl x) same
      exact idle ⟨x, hx, this ▸ .refl m⟩
    rw [Gradients.get?_insert, if_neg differs]
    exact h.reached x hx

/-- The first sweep adds to what is pending for a node that the second one does not visit. -/
theorem insert_pending_alone :
    Shares e fewer u { flow with pending := flow.pending.insert m.id total } flow' where
  pending n belowN above := by
    have differs : m.id ≠ n.id := fun same => idle (coherent.eq_of_reaches below belowN same ▸ above)
    dsimp only
    rw [Std.HashMap.getElem?_insert, if_neg (by simpa using differs)]
    exact h.pending n belowN above
  idle := h.idle
  reached := h.reached

end Shares

/-- Two sweeps stand where the renaming says, and hold what corresponds. -/
def Abreast (e : Node K) (fewer : List (Node K)) (u : Renaming K old)
    (s s' : Workspace K × Flow K) : Prop :=
  (renamings K old).Stands u s.1 s'.1 ∧ Shares e fewer u s.2 s'.2

section

variable {r : Registry K}

/-! ## One contribution -/

theorem accumulate_tandem (indifferent : r.Indifferent old) {total? total?' : Option (Node K)}
    (totals : Option.Rel u.nodes total? total?') (upstream : u.nodes g g') :
    Tandem (renamings K old).Stands (fun v => v.nodes) u (r.accumulate total? g)
      (r.accumulate total?' g') := by
  cases totals with
  | none => exact .value upstream
  | some related =>
      exact Frame.make_tandem indifferent.optimize u _ _
        (.apply "+" (.cons related (.cons upstream .nil)))

theorem accumulate_advances (r : Registry K) (total? : Option (Node K)) (g : Node K)
    (next : NodeId) :
    Triple (next ≤ ·.nextId) (r.accumulate total? g) (fun _ w => next ≤ w.nextId)
      fun _ w => next ≤ w.nextId := by
  cases total? with
  | none => exact .value fun _ => id
  | some total => exact make_advances r (.apply "+" [total, g]) next

/-- The first sweep makes nodes alone. -/
theorem within_alone {α : Type} {work : Work K α}
    (advances : ∀ next, Triple (next ≤ ·.nextId) work (fun _ w => next ≤ w.nextId)
      fun _ w => next ≤ w.nextId) (s' : Workspace K × Flow K) :
    Triple (Abreast e fewer u · s') (Work.within work) (fun _ s => Abreast e fewer u s s')
      fun _ _ => True := by
  refine .within fun flow w states => (advances w.nextId w le_rfl).imp ?_ fun _ _ _ => trivial
  intro _ w' later
  exact ⟨Renaming.Next.mono states.1 later, states.2⟩

theorem within_tandem {α α' : Type} {rel : Renaming K old → α → α' → Prop} {work : Work K α}
    {work' : Work K α'} (h : Tandem (renamings K old).Stands rel u work work') :
    Tandem (Abreast e fewer) rel u (Work.within work) (Work.within work') :=
  .within (fun _ _ _ _ later shares => shares.mono later) h

theorem mem_of_above (above : Above fewer m) (leaf : m.isLeaf = true) : m ∈ fewer := by
  rcases above with ⟨x, hx, reaches⟩
  cases m with
  | leaf => exact reaches.eq_of_operands_eq_nil rfl ▸ hx
  | constant | application => exact absurd leaf Bool.false_ne_true

/-- Both sweeps take what is pending for a node, which is nothing in the second one if the node is
above none of the fewer leaves. -/
theorem takePending?_tandem (below : e.Reaches n) :
    Tandem (Abreast e fewer)
      (fun v g? g?' => (Above fewer n → Option.Rel v.nodes g? g?') ∧ (¬ Above fewer n → g?' = none)) u
      (Registry.takePending? n.id) (Registry.takePending? n.id) :=
  .take fun _ _ states => ⟨u, le_rfl, ⟨states.2.pending n below, states.2.idle n below⟩, states.1,
    states.2.erase n.id⟩

variable [Arithmetic K] [Numeral K] (coherent : Node.Coherent (e :: deps)) (sub : fewer ⊆ deps)
  (below : e.Reaches m)

include coherent sub below

/-- What both sweeps contribute to a node above one of the fewer leaves. -/
theorem contribute_tandem (indifferent : r.Indifferent old) (above : Above fewer m)
    (upstream : u.nodes g g') :
    Tandem (Abreast e fewer) (fun _ _ _ => True) u
      (r.contribute (Registry.relevantTo e deps) ⟨m, g⟩)
      (r.contribute (Registry.relevantTo e fewer) ⟨m, g'⟩) := by
  have fewerCoherent : Node.Coherent (e :: fewer) := coherent.of_subset (List.cons_subset_cons e sub)
  have marked : (Registry.relevantTo e deps).contains m.id = true := by
    refine (Registry.relevantTo_contains_iff coherent below).2 ?_
    exact above.imp fun x both => ⟨sub both.1, both.2⟩
  have marked' := (Registry.relevantTo_contains_iff fewerCoherent below).2 above
  rw [Registry.contribute, Registry.contribute, (u.resembles upstream).shape]
  dsimp only
  rw [if_pos marked, if_pos marked']
  -- a gradient of another shape is refused by both
  refine Tandem.ite Iff.rfl (fun _ _ _ states => .fault le_rfl states) fun _ => ?_
  refine (within_tandem (Frame.record_tandem _ _)).bind fun v _ _ later _ => ?_
  refine Tandem.read.bind fun v' now now' later' states => ?_
  have upstream := later' (later upstream)
  refine Tandem.ite Iff.rfl (fun leaf => ?_) fun _ => ?_
  · have held := states.2.reached m (mem_of_above above leaf)
    refine (within_tandem (accumulate_tandem indifferent held upstream)).bind
      fun v _ _ _ related => ?_
    exact .update fun s s' states => ⟨states.1, states.2.insert_gradient m related⟩
  · have held := states.2.pending m below above
    refine (within_tandem (accumulate_tandem indifferent held upstream)).bind
      fun v _ _ _ related => ?_
    exact .update fun s s' states =>
      ⟨states.1, states.2.insert_pending fewerCoherent below above related⟩

/-- What the first sweep contributes to another node. -/
theorem contribute_alone (idle : ¬ Above fewer m) (g : Node K) (s' : Workspace K × Flow K) :
    Triple (Abreast e fewer u · s') (r.contribute (Registry.relevantTo e deps) ⟨m, g⟩)
      (fun _ s => Abreast e fewer u s s') fun _ _ => True := by
  have fewerCoherent : Node.Coherent (e :: fewer) := coherent.of_subset (List.cons_subset_cons e sub)
  rw [Registry.contribute]
  dsimp only
  split
  · exact fun _ _ => trivial
  refine Triple.bind (m := fun _ s => Abreast e fewer u s s')
    (.within fun _ => .record fun _ states => states) fun _ => ?_
  split
  · refine Triple.bind (m := fun _ s => Abreast e fewer u s s') (.read fun _ => id) fun now => ?_
    split
    · refine (within_alone (accumulate_advances r _ g) s').bind fun total => .update ?_
      exact fun s states => ⟨states.1, states.2.insert_gradient_alone fewerCoherent below idle⟩
    · refine (within_alone (accumulate_advances r _ g) s').bind fun total => .update ?_
      exact fun s states => ⟨states.1, states.2.insert_pending_alone fewerCoherent below idle⟩
  · exact .value fun _ => id

theorem contribute_retraced (indifferent : r.Indifferent old) (upstream : u.nodes g g') :
    Retraced (Abreast e fewer) (fun _ _ _ => True) u
      (r.contribute (Registry.relevantTo e deps) ⟨m, g⟩)
      (r.contribute (Registry.relevantTo e fewer) ⟨m, g'⟩) := by
  by_cases above : Above fewer m
  · exact (contribute_tandem coherent sub below indifferent above upstream).retraced
  -- whatever the first sweep does about the contribution, the second one drops it
  intro s s' states _ t run
  have kept := contribute_alone (r := r) coherent sub below above g s' s states
  rw [run] at kept
  have dropped : ¬ (Registry.relevantTo e fewer).contains m.id = true := fun marked =>
    above ((Registry.relevantTo_contains_iff
      (coherent.of_subset (List.cons_subset_cons e sub)) below).1 marked)
  rw [Registry.contribute] at run
  rw [Registry.contribute, (u.resembles upstream).shape]
  dsimp only at run ⊢
  rw [if_neg dropped]
  split at run
  · cases run
  · rename_i same
    rw [if_neg same]
    exact ⟨u, (), _, rfl, le_rfl, trivial, kept⟩

/-! ## One node of the sweep -/

omit below

variable {i : NodeId} {s : Signature} {operands : List (Node K)}
  {gradient : Node K → List (Node K) → Recipe K (Contribution K) Unit Unit}
  {incoming incoming' : Node K}

/-- A hook fires in both sweeps. -/
theorem fire_retraced (indifferent : r.Indifferent old) (own : r.RoutesToOperands e)
    (older : e.Older old) (below : e.Reaches (.application i s operands))
    (hook : (r.hooks s).gradient = some gradient) (upstream : u.nodes incoming incoming') :
    Retraced (Abreast e fewer) (fun _ _ _ => True) u
      ((gradient incoming operands).run (fun c => Work.within (r.make c))
        (r.contribute (Registry.relevantTo e deps)) fun e => Work.within (Work.refuse e))
      ((gradient incoming' operands).run (fun c => Work.within (r.make c))
        (r.contribute (Registry.relevantTo e fewer)) fun e => Work.within (Work.refuse e)) := by
  have reached (m : Node K) (hm : m ∈ operands) : e.Reaches m := below.trans (.of_mem_operands hm)
  refine Recipe.Accords.retraced (c := fun v : Renaming K old => .contributing v.nodes)
    (fun v later => ?_) (own i s operands below gradient hook incoming)
    (fun _ _ _ _ later => (later ·)) (fun _ _ _ _ _ _ => trivial) (fun v k k' _ like => ?_)
    fun v c c' _ hc asked => ?_
  · refine indifferent.gradient s gradient hook v incoming incoming' operands operands
      (later upstream) (List.forall₂_same.2 fun m hm => ?_)
    exact v.shared (older.of_reaches (reached m hm))
  · exact (within_tandem (Frame.make_tandem indifferent.optimize v k k' like)).retraced
  · -- the operands are old, so they are the same in both sweeps
    rcases c with ⟨m, g⟩
    rcases c' with ⟨m', g'⟩
    rcases asked with ⟨same, related⟩
    obtain rfl := v.eq_of_older (older.of_reaches (reached m hc)) same
    exact contribute_retraced coherent sub (reached _ hc) indifferent related

/-- A hook fires in the first sweep only. -/
theorem fire_alone (own : r.RoutesToOperands e) (below : e.Reaches (.application i s operands))
    (hook : (r.hooks s).gradient = some gradient) (idle : ¬ Above fewer (.application i s operands))
    (incoming : Node K) (s' : Workspace K × Flow K) :
    Triple (Abreast e fewer u · s')
      ((gradient incoming operands).run (fun c => Work.within (r.make c))
        (r.contribute (Registry.relevantTo e deps)) fun e => Work.within (Work.refuse e))
      (fun _ s => Abreast e fewer u s s') fun _ _ => True := by
  refine (own i s operands below gradient hook incoming).run_keeps
    (fun c => within_alone (make_advances r c) s') fun c hc => ?_
  refine contribute_alone coherent sub (below.trans (.of_mem_operands hc)) (fun above => idle ?_)
    c.gradient s'
  exact above.imp fun x both => ⟨both.1, .step hc both.2⟩

theorem propagate_retraced (indifferent : r.Indifferent old) (own : r.RoutesToOperands e)
    (older : e.Older old) (below : e.Reaches n) :
    Retraced (Abreast e fewer) (fun _ _ _ => True) u
      (r.propagate (Registry.relevantTo e deps) n) (r.propagate (Registry.relevantTo e fewer) n) := by
  cases n with
  | constant | leaf => exact .value trivial
  | application id s operands =>
      rw [Registry.propagate, Registry.propagate]
      refine (takePending?_tandem below).retraced.bind fun v g? g?' _ taken => ?_
      by_cases above : Above fewer (.application id s operands)
      · -- what is pending corresponds, so both skip the node or its hook fires in both
        cases taken.1 above with
        | none => exact .value trivial
        | some upstream =>
            dsimp only
            rw [(v.resembles upstream).isZero]
            refine .ite (fun _ => (within_tandem (Frame.record_tandem _ _)).retraced) fun _ => ?_
            cases hook : (r.hooks s).gradient with
            | none => exact .giveUp
            | some gradient =>
                refine (within_tandem (Frame.record_tandem _ _)).retraced.bind
                  fun w _ _ later _ => ?_
                exact fire_retraced coherent sub indifferent own older below hook (later upstream)
      · -- nothing is pending in the second sweep, which passes the node over
        obtain rfl := taken.2 above
        cases g? with
        | none => exact .value trivial
        | some incoming =>
            refine .alone fun s' => ?_
            dsimp only
            split
            · exact .within fun _ => .record fun _ states => states
            split
            · exact fun _ _ => trivial
            · rename_i gradient hook
              refine Triple.bind (m := fun _ s => Abreast e fewer v s s')
                (.within fun _ => .record fun _ states => states) fun _ => ?_
              exact fire_alone coherent sub own below hook above incoming s'

/-! ## The sweep -/

theorem sweep_retraced (indifferent : r.Indifferent old) (own : r.RoutesToOperands e)
    (older : e.Older old) {nodes : List (Node K)} (below : ∀ n ∈ nodes, e.Reaches n) :
    Retraced (Abreast e fewer) (fun _ _ _ => True) u
      (nodes.forM (r.propagate (Registry.relevantTo e deps)))
      (nodes.forM (r.propagate (Registry.relevantTo e fewer))) := by
  induction nodes generalizing u with
  | nil => exact .value trivial
  | cons n rest ih =>
      rw [List.forM, List.forM]
      refine (propagate_retraced coherent sub indifferent own older
        (below n List.mem_cons_self)).bind fun v _ _ _ _ => ?_
      exact ih fun m hm => below m (List.mem_cons_of_mem n hm)

theorem backpropFrom_retraced (indifferent : r.Indifferent old) (own : r.RoutesToOperands e)
    (older : e.Older old) {seed : Node K} (seedOlder : seed.Older old) :
    Retraced (renamings K old).Stands
      (fun v gradients gradients' =>
        ∀ x ∈ fewer, Option.Rel v.nodes (gradients.get? x) (gradients'.get? x)) u
      (r.backpropFrom e deps seed) (r.backpropFrom e fewer seed) := by
  rw [Registry.backpropFrom, Registry.backpropFrom]
  -- if all nodes that are asked for are leaves, so are the fewer
  have checked : Retraced (renamings K old).Stands (fun _ _ _ => True) u
      (Work.ofExcept (deps.forM Registry.checkDependency))
      (Work.ofExcept (fewer.forM Registry.checkDependency)) := by
    refine .ofExcept fun _ accepted => ?_
    have leaves := Registry.forM_checkDependency_iff.1 accepted
    exact ⟨(), Registry.forM_checkDependency_iff.2 fun x hx => leaves x (sub hx), trivial⟩
  refine checked.bind fun v _ _ later _ => ?_
  dsimp only
  refine .ite (fun _ => .giveUp) fun _ => ?_
  refine Retraced.starting (R := Shares e fewer) .empty ?_
  refine Retraced.bind (I := Abreast e fewer)
    (contribute_retraced coherent sub (.refl e) indifferent (v.shared seedOlder)) fun w _ _ _ _ => ?_
  refine (sweep_retraced coherent sub indifferent own older fun n hn => ?_).bind fun w' _ _ _ _ => ?_
  · exact Node.reaches_of_mem_postOrder (List.mem_reverse.1 hn)
  · exact Tandem.read.retraced.bind fun _ _ _ _ states => .value states.2.reached

omit coherent sub in
/-- The gradient of a leaf does not depend on which other gradients are asked for.  Whenever a sweep
comes to an end, so does one that is asked for fewer leaves: for one of them alone, or for the same ones
in another order or more than once.  Each of the fewer leaves is reached by both sweeps or by neither,
and if it is reached, its gradient is one expression in both.  The hooks contribute to their own
operands, and the identities in the expression and the seed are old ones. -/
theorem backprop_separates {w w' after : Workspace K} {seed : Node K} {gradients : Gradients K}
    (indifferent : r.Indifferent old) (own : r.RoutesToOperands e)
    (coherent : Node.Coherent (e :: deps)) (older : e.Older old) (seedOlder : seed.Older old)
    (late : old ≤ w.nextId) (late' : old ≤ w'.nextId)
    (run : (r.backpropFrom e deps seed).runIn w = (.ok gradients, after))
    (sub : fewer ⊆ deps) :
    ∃ gradients' after', (r.backpropFrom e fewer seed).runIn w' = (.ok gradients', after') ∧
      ∀ x ∈ fewer, Option.Rel Node.SameTree (gradients.get? x) (gradients'.get? x) := by
  have retraced := backpropFrom_retraced (u := .start K old) coherent sub indifferent own older
    seedOlder w w' (Renaming.next_start late late') gradients after run
  rcases retraced with ⟨v, gradients', after', run', _, related, _⟩
  exact ⟨gradients', after', run', fun x hx => optionRel_imp (related x hx) fun _ _ => v.sameTree⟩

end

/-! ## Standard operators -/

namespace Standard

/-- Of a sum of two products, only one is above the leaf that is asked for alone. -/
theorem backprop_separates_products :
    let x : Node ℚ := .leaf 4 "x" .scalar
    let y : Node ℚ := .leaf 5 "y" .scalar
    let left : Node ℚ := .application 6 ⟨.scalar, "*", [.scalar, .scalar]⟩ [x, y]
    let right : Node ℚ := .application 7 ⟨.scalar, "*", [.scalar, .scalar]⟩ [y, y]
    let sum : Node ℚ := .application 8 ⟨.scalar, "+", [.scalar, .scalar]⟩ [left, right]
    let seed : Node ℚ := .constant 9 (.scalar 1)
    ∃ gradients after gradients' after',
      ((Registry.standard : Registry ℚ).backpropFrom sum [x, y] seed).runIn ⟨10, #[]⟩ =
        (.ok gradients, after) ∧
      ((Registry.standard : Registry ℚ).backpropFrom sum [x] seed).runIn ⟨20, #[]⟩ =
        (.ok gradients', after') ∧
      Option.Rel Node.SameTree (gradients.get? x) (gradients'.get? x) := by
  intro x y left right sum seed
  let nodes := [sum, right, left, y, x]
  have closed : ∀ n ∈ nodes, ∀ m ∈ n.operands, m ∈ nodes := by
    simp [nodes, sum, right, left, y, x]
  have distinct : (nodes.map Node.id).Nodup := by
    simp [nodes, sum, right, left, y, x]
  have early : ∀ n ∈ nodes, n.id < 10 := by
    simp [nodes, sum, right, left, y, x]
  have coherent : Node.Coherent [sum, x, y] :=
    (Node.Coherent.of_closed closed distinct).of_subset (by simp [nodes])
  have older : sum.Older 10 := fun z below =>
    early z (below.mem_of_closed closed List.mem_cons_self)
  have seedOlder : seed.Older 10 := fun z below => by
    rw [below.eq_of_operands_eq_nil rfl]
    decide
  have product (i : NodeId) (a b : Node ℚ) (operands : ∀ n ∈ [a, b], Typed n ∧ Smooth n)
      (shapes : [a, b].map Node.shape = [.scalar, .scalar]) :
      Typed (.application i ⟨.scalar, "*", [.scalar, .scalar]⟩ [a, b]) ∧
        Smooth (.application i ⟨.scalar, "*", [.scalar, .scalar]⟩ [a, b]) :=
    ⟨typed_application .multiplication i shapes fun n hn => (operands n hn).1,
      (smooth_application (o := .multiplication)).2
        ⟨⟨nofun, nofun⟩, fun n hn => (operands n hn).2⟩⟩
  have plain (i : NodeId) (name : String) :
      Typed (.leaf i name .scalar : Node ℚ) ∧ Smooth (.leaf i name .scalar : Node ℚ) :=
    ⟨.leaf i name .scalar, Node.appliesOnly_of_plain rfl⟩
  have operands : ∀ n ∈ [left, right], Typed n ∧ Smooth n := by
    refine List.forall_mem_cons.2 ⟨product 6 x y ?_ rfl, List.forall_mem_singleton.2 ?_⟩
    · exact List.forall_mem_cons.2 ⟨plain 4 "x", List.forall_mem_singleton.2 (plain 5 "y")⟩
    · refine product 7 y y (List.forall_mem_cons.2 ⟨plain 5 "y", ?_⟩) rfl
      exact List.forall_mem_singleton.2 (plain 5 "y")
  have typed : Typed sum :=
    typed_application (.addition .scalar (by decide)) 8 rfl fun n hn => (operands n hn).1
  have smooth : Smooth sum := (smooth_application (o := .addition .scalar (by decide))).2
    ⟨⟨nofun, nofun⟩, fun n hn => (operands n hn).2⟩
  rcases backpropFrom_eq_ok typed (.constant 9 rfl : seed.WellTyped _) rfl
    (by simp [x, y, Node.isLeaf]) coherent (fun z _ => smooth.above z) ⟨10, #[]⟩ with
    ⟨gradients, after, run⟩
  have late' : 10 ≤ (⟨20, #[]⟩ : Workspace ℚ).nextId := by decide
  have sub : [x] ⊆ [x, y] := by simp
  rcases backprop_separates (indifferent (by decide)) (routesToOperands sum) coherent older seedOlder
    le_rfl late' run sub with ⟨gradients', after', run', same⟩
  exact ⟨gradients, after, gradients', after', run, run', same x List.mem_cons_self⟩

end Standard

end SymbolicLinalg
