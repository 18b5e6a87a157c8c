import SymbolicLinalg.Gradient
import SymbolicLinalg.Proofs.Adjoint
import SymbolicLinalg.Proofs.DualValue
import SymbolicLinalg.Proofs.Rational
import SymbolicLinalg.Proofs.Relevance
import SymbolicLinalg.Proofs.Soundness

/-!
# Sweep — reverse-mode differentiation is the adjoint of forward differentiation

The sweep visits every application before its operands.  What it keeps unchanged is a balance: the
inner products of the pending gradients with the tangents of the applications that are still to be
visited, together with the inner product of the gradient that has reached a leaf with the tangent of
the leaf.  It begins as the inner product of the seed with the tangent of the root.
-/

namespace SymbolicLinalg

namespace Standard

variable {K : Type} [Arithmetic K] [Numeral K] {Φ : Prop} {ρ : Assignment K} {e g m n x y : Node K}
  {t : Literal K} {deps nodes : List (Node K)} {flow : Flow K}

/-! ## The balance -/

/-- The inner product of a gradient, if one has arrived, and a tangent. -/
def inflow [Zero K] (ρ : Assignment K) (g? : Option (Node K)) (u : Literal K) : K :=
  g?.elim 0 fun g => (g.value Standard.meaning ρ).dot u

/-- What is pending for some nodes, and what has reached the leaf, weighed with the tangents. -/
def balance [Field K] (ρ : Assignment K) (x : Node K) (t : Literal K) (nodes : List (Node K))
    (flow : Flow K) : K :=
  (nodes.map fun n => inflow ρ flow.pending[n.id]? (directional ρ x t n)).sum +
    inflow ρ (flow.gradients.get? x) t

/-- Gradients are pending for applications above the leaves only, and all gradients have the shapes
of their nodes. -/
structure Flowing (Φ : Prop) (ρ : Assignment K) (e : Node K) (deps : List (Node K))
    (flow : Flow K) : Prop where
  pending : ∀ n, e.Reaches n → ∀ g, flow.pending[n.id]? = some g →
    n.isApplication = true ∧ (∃ y ∈ deps, n.Reaches y) ∧
      Denotes Φ ρ g n.shape (g.value Standard.meaning ρ)
  reached : ∀ y ∈ deps, ∀ g, flow.gradients.get? y = some g →
    Denotes Φ ρ g y.shape (g.value Standard.meaning ρ)

/-- What a sweep takes for granted of the expression and the leaves; under the assumption, one of the
leaves moves. -/
structure Sweepable (Φ : Prop) (ρ : Assignment K) (x : Node K) (t : Literal K) (e : Node K)
    (deps : List (Node K)) : Prop where
  typed : Typed e
  coherent : Node.Coherent (e :: deps)
  leaves : ∀ y ∈ deps, y.isLeaf = true
  smooth : ∀ y ∈ deps, SmoothAbove y e
  moving : Φ → Moving ρ x t e
  target : Φ → x ∈ deps

namespace Sweepable

variable (h : Sweepable Φ ρ x t e deps)

include h

theorem eq_of_id_eq (hm : e.Reaches m) (hn : e.Reaches n) (same : m.id = n.id) : m = n :=
  h.coherent.eq_of_reaches hm hn same

theorem deps_eq_of_id_eq (hy : y ∈ deps) (hn : n ∈ deps) (same : y.id = n.id) : y = n :=
  h.coherent y (List.mem_cons_of_mem e hy) n (List.mem_cons_of_mem e hn) y n (.refl y) (.refl n)
    same

theorem directional_leaf (below : e.Reaches x) (hΦ : Φ) : directional ρ x t x = t := by
  have moving := (h.moving hΦ).of_reaches below
  have leaf := h.leaves x (h.target hΦ)
  cases x with
  | leaf id name s =>
      rcases moving.along_leaf rfl with ⟨along, value, tangent⟩
      change (ρ.along _ t id).tangent = t
      rw [along, Literal.tangent_withTangent value tangent]
  | constant | application => exact absurd leaf Bool.false_ne_true

section

variable [Field K] [FieldArithmetic K]

theorem directional_of_not_reaches (below : e.Reaches m) (apart : ¬ m.Reaches x) (hΦ : Φ) :
    directional ρ x t m = .zero m.shape := by
  have moving := (h.moving hΦ).of_reaches below
  have typed := h.typed.of_reaches below
  have still : dualValue ρ x t m = (m.value Standard.meaning ρ).steady := by
    refine dualValue_of_not_reaches typed fun y hy same => apart ?_
    exact moving.unique y hy same ▸ hy
  rw [directional, still, Literal.tangent_steady (hasShape_value typed moving.fits)]

/-- What goes to a node that is not above the leaf carries nothing. -/
theorem carriedBy_of_not_reaches (below : e.Reaches m) (apart : ¬ m.Reaches x)
    (hg : Denotes Φ ρ g m.shape (g.value Standard.meaning ρ)) (hΦ : Φ) :
    carriedBy ρ (dualValue ρ x t) ⟨m, g⟩ = 0 := by
  have still : (dualValue ρ x t m).tangent = .zero m.shape :=
    h.directional_of_not_reaches below apart hΦ
  rw [carriedBy, still, Literal.dot_zero (hg.hasShape hΦ)]

end

end Sweepable

variable {total : Node K} {total? : Option (Node K)} {s : Shape}

theorem flowing_empty : Flowing Φ ρ e deps ⟨∅, .empty⟩ where
  pending n _ g found := by
    rw [Std.HashMap.getElem?_empty] at found
    exact absurd found nofun
  reached y _ g found := by
    rw [Gradients.get?_empty] at found
    exact absurd found nofun

theorem Flowing.pending_eq_none (flowing : Flowing Φ ρ e deps flow) (below : e.Reaches n)
    (plain : n.isApplication = false) : flow.pending[n.id]? = none := by
  cases found : flow.pending[n.id]? with
  | none => rfl
  | some g =>
      rw [(flowing.pending n below g found).1] at plain
      exact absurd plain nofun

theorem Flowing.insert_gradient (h : Sweepable Φ ρ x t e deps) (flowing : Flowing Φ ρ e deps flow)
    (hm : m ∈ deps) (denotes : Denotes Φ ρ total m.shape (total.value Standard.meaning ρ)) :
    Flowing Φ ρ e deps { flow with gradients := flow.gradients.insert m total } := by
  refine ⟨flowing.pending, fun y hy g found => ?_⟩
  rw [Gradients.get?_insert] at found
  split at found
  · -- the entry is the new one
    rename_i same
    obtain rfl := Option.some.inj found
    rwa [← h.deps_eq_of_id_eq hm hy same]
  · exact flowing.reached y hy g found

theorem Flowing.insert_pending (h : Sweepable Φ ρ x t e deps) (flowing : Flowing Φ ρ e deps flow)
    (below : e.Reaches m) (application : m.isApplication = true) (above : ∃ y ∈ deps, m.Reaches y)
    (denotes : Denotes Φ ρ total m.shape (total.value Standard.meaning ρ)) :
    Flowing Φ ρ e deps { flow with pending := flow.pending.insert m.id total } := by
  refine ⟨fun n hn g found => ?_, flowing.reached⟩
  dsimp only at found
  rw [Std.HashMap.getElem?_insert] at found
  split at found
  · -- the entry is the new one
    rename_i same
    obtain rfl := Option.some.inj found
    obtain rfl := h.eq_of_id_eq below hn (beq_iff_eq.1 same)
    exact ⟨application, above, denotes⟩
  · exact flowing.pending n hn g found

omit [Arithmetic K] [Numeral K] in
/-- The gradient of one node changes, and those of others do not. -/
theorem sum_map_of_one [AddCommMonoid K] (sorted : Node.UsersFirst nodes) (hm : m ∈ nodes)
    {f f' : Node K → K} {d : K} (here : f' m = f m + d)
    (elsewhere : ∀ n ∈ nodes, n.id ≠ m.id → f' n = f n) :
    (nodes.map f').sum = (nodes.map f).sum + d := by
  induction sorted with
  | nil => exact absurd hm List.not_mem_nil
  | @cons n rest _ apart _ ih =>
      rw [List.map_cons, List.map_cons, List.sum_cons, List.sum_cons]
      -- the changed node is the first one, or among the rest; never both
      rcases List.mem_cons.1 hm with rfl | hm
      · have others : rest.map f' = rest.map f := List.map_congr_left fun k hk =>
          elsewhere k (List.mem_cons_of_mem _ hk) (apart k hk)
        rw [here, others, add_right_comm]
      · have first : f' n = f n := elsewhere n List.mem_cons_self fun same => apart m hm same.symm
        have others := ih hm fun k hk => elsewhere k (List.mem_cons_of_mem n hk)
        rw [first, others, add_assoc]

section

variable [Field K] [FieldArithmetic K]

/-- Two gradients are added up. -/
def AddsUp (Φ : Prop) (ρ : Assignment K) (s : Shape) (total? : Option (Node K)) (g sum : Node K) :
    Prop :=
  Φ → ∀ u : Literal K, u.HasShape s →
    inflow ρ (some sum) u = inflow ρ total? u + (g.value Standard.meaning ρ).dot u

theorem balance_insert_gradient (h : Sweepable Φ ρ x t e deps) (below : e.Reaches m)
    (hm : m ∈ deps) (hg : Denotes Φ ρ g m.shape (g.value Standard.meaning ρ))
    (adds : AddsUp Φ ρ m.shape (flow.gradients.get? m) g total) (hΦ : Φ) :
    balance ρ x t nodes { flow with gradients := flow.gradients.insert m total } =
      balance ρ x t nodes flow + carriedBy ρ (dualValue ρ x t) ⟨m, g⟩ := by
  rw [balance, balance, Gradients.get?_insert]
  by_cases same : m.id = x.id
  · -- the gradient of the leaf itself grows by what is contributed
    obtain rfl : m = x := h.deps_eq_of_id_eq hm (h.target hΦ) same
    have tangent : (dualValue ρ m t m).tangent = t := h.directional_leaf below hΦ
    rw [if_pos rfl, adds hΦ t (h.moving hΦ).tangent, carriedBy, tangent, add_assoc]
  · -- the leaf is not below another leaf, so the contribution carries nothing
    have apart : ¬ m.Reaches x := by
      intro above
      have leaf := h.leaves m hm
      cases m with
      | leaf id name s => exact same (above.eq_of_operands_eq_nil rfl ▸ rfl)
      | constant | application => exact absurd leaf Bool.false_ne_true
    rw [if_neg same, h.carriedBy_of_not_reaches below apart hg hΦ, add_zero]

omit [FieldArithmetic K] in
theorem balance_insert_pending (h : Sweepable Φ ρ x t e deps) (below : e.Reaches m)
    (sorted : Node.UsersFirst nodes) (hm : m ∈ nodes)
    (adds : AddsUp Φ ρ m.shape flow.pending[m.id]? g total) (hΦ : Φ) :
    balance ρ x t nodes { flow with pending := flow.pending.insert m.id total } =
      balance ρ x t nodes flow + carriedBy ρ (dualValue ρ x t) ⟨m, g⟩ := by
  have tangent : (directional ρ x t m).HasShape m.shape :=
    (hasShape_dualValue (h.typed.of_reaches below) ((h.moving hΦ).of_reaches below)).tangent
  have here : inflow ρ (flow.pending.insert m.id total)[m.id]? (directional ρ x t m) =
      inflow ρ flow.pending[m.id]? (directional ρ x t m) +
        carriedBy ρ (dualValue ρ x t) ⟨m, g⟩ := by
    rw [Std.HashMap.getElem?_insert_self]
    exact adds hΦ _ tangent
  have elsewhere (n : Node K) (_ : n ∈ nodes) (differs : n.id ≠ m.id) :
      inflow ρ (flow.pending.insert m.id total)[n.id]? (directional ρ x t n) =
        inflow ρ flow.pending[n.id]? (directional ρ x t n) := by
    rw [Std.HashMap.getElem?_insert, if_neg (by simpa using differs.symm)]
  rw [balance, balance, sum_map_of_one sorted hm here elsewhere, add_right_comm]

/-! ## One contribution -/

variable [AngleArithmetic K]

theorem accumulate_triple (plain : total? = none ∨ s ≠ .genericScalar)
    (ht : ∀ total ∈ total?, Denotes Φ ρ total s (total.value Standard.meaning ρ))
    (hg : Denotes Φ ρ g s (g.value Standard.meaning ρ)) :
    Triple (fun _ => True) ((Registry.standard : Registry K).accumulate total? g)
      (fun sum _ => Denotes Φ ρ sum s (sum.value Standard.meaning ρ) ∧ AddsUp Φ ρ s total? g sum)
      never := by
  cases total? with
  -- the first gradient is kept as it is
  | none =>
      refine .value fun _ _ => ⟨hg, fun hΦ u hu => ?_⟩
      exact (zero_add _).symm
  -- a further one is added by the operator of the shape
  | some total =>
      have vector : s ≠ .genericScalar := plain.resolve_left nofun
      have before := ht total rfl
      refine (apply_triple (o := .addition s vector) (.two before hg)).relax ?_
      intro sum _ applied
      have result := applied.denotes
      rw [Operator.value_addition] at result
      refine ⟨result.of_eq fun hΦ => (result.value hΦ).symm, fun hΦ u hu => ?_⟩
      calc (sum.value Standard.meaning ρ).dot u
          = (Literal.zipWith Arithmetic.add (total.value Standard.meaning ρ)
              (g.value Standard.meaning ρ)).dot u := by rw [result.value hΦ]
        _ = _ := Literal.add_dot hu (before.hasShape hΦ) (hg.hasShape hΦ)

/-- There is nothing yet to which a gradient of a shape without addition would have to be added. -/
def Addable (m : Node K) (flow : Flow K) : Prop :=
  m.shape = .genericScalar → flow.pending[m.id]? = none ∧ flow.gradients.get? m = none

theorem contribute_triple (h : Sweepable Φ ρ x t e deps) (sorted : Node.UsersFirst nodes)
    (below : e.Reaches m) (queued : m.isApplication = true → m ∈ nodes)
    (hg : Denotes Φ ρ g m.shape (g.value Standard.meaning ρ)) {q : K} :
    Triple
      (fun s => Flowing Φ ρ e deps s.2 ∧ Addable m s.2 ∧ (Φ → balance ρ x t nodes s.2 = q))
      ((Registry.standard : Registry K).contribute (Registry.relevantTo e deps) ⟨m, g⟩)
      (fun _ s => Flowing Φ ρ e deps s.2 ∧
        (Φ → balance ρ x t nodes s.2 = q + carriedBy ρ (dualValue ρ x t) ⟨m, g⟩)) never := by
  have shape : ¬ g.shape ≠ m.shape := not_not_intro hg.shape
  have relevant := Registry.relevantTo_contains_iff h.coherent below
  rw [Registry.contribute, if_neg shape]
  refine Triple.bind (m := fun _ s => Flowing Φ ρ e deps s.2 ∧ Addable m s.2 ∧
    (Φ → balance ρ x t nodes s.2 = q)) (.within fun _ => .record fun _ hs => hs) fun _ => ?_
  split
  · -- a leaf that is asked for lies below the node
    rename_i marked
    have above := relevant.1 marked
    refine Triple.bind (m := fun (now : Workspace K × Flow K) s =>
      (Flowing Φ ρ e deps now.2 ∧ Addable m now.2 ∧ (Φ → balance ρ x t nodes now.2 = q)) ∧
        s.2 = now.2) (.read fun s hs => ⟨hs, rfl⟩) ?_
    intro now
    rcases now with ⟨_, flow⟩
    refine .assuming fun ⟨flowing, addable, balanced⟩ => ?_
    dsimp only
    rcases Node.leaf_or_application h.leaves above with ⟨leaf, hm⟩ | ⟨inner, application⟩
    · -- the node is a leaf: its gradient grows
      rw [if_pos leaf]
      have sums := accumulate_triple ((em _).imp (fun generic => (addable generic).2) fun s => s)
        (flowing.reached m hm) hg
      refine Triple.bind (Triple.inside (· = flow) sums) fun total => .update ?_
      intro s hs
      rcases s with ⟨_, _⟩
      rcases hs with ⟨⟨denotes, adds⟩, rfl⟩
      refine ⟨flowing.insert_gradient h hm denotes, fun hΦ => ?_⟩
      rw [← balanced hΦ]
      exact balance_insert_gradient h below hm hg adds hΦ
    · -- the node is visited later: what is pending for it grows
      rw [if_neg (by simp [inner])]
      have sums := accumulate_triple ((em _).imp (fun generic => (addable generic).1) fun s => s)
        (fun total found => (flowing.pending m below total found).2.2) hg
      refine Triple.bind (Triple.inside (· = flow) sums) fun total => .update ?_
      intro s hs
      rcases s with ⟨_, _⟩
      rcases hs with ⟨⟨denotes, adds⟩, rfl⟩
      refine ⟨flowing.insert_pending h below application above denotes, fun hΦ => ?_⟩
      rw [← balanced hΦ]
      exact balance_insert_pending h below sorted (queued application) adds hΦ
  · -- the contribution is dropped, and carries nothing to the leaf
    rename_i dropped
    refine Triple.value fun s ⟨flowing, _, balanced⟩ => ⟨flowing, fun hΦ => ?_⟩
    have apart : ¬ m.Reaches x := fun above => dropped (relevant.2 ⟨x, h.target hΦ, above⟩)
    rw [h.carriedBy_of_not_reaches below apart hg hΦ, add_zero]
    exact balanced hΦ

/-! ## One node of the sweep -/

omit [FieldArithmetic K] [AngleArithmetic K] in
theorem balance_empty (nodes : List (Node K)) : balance ρ x t nodes ⟨∅, .empty⟩ = 0 := by
  simp [balance, inflow, Gradients.get?_empty]

omit [FieldArithmetic K] [AngleArithmetic K] in
theorem balance_cons (n : Node K) (rest : List (Node K)) (flow : Flow K) :
    balance ρ x t (n :: rest) flow =
      inflow ρ flow.pending[n.id]? (directional ρ x t n) + balance ρ x t rest flow := by
  rw [balance, balance, List.map_cons, List.sum_cons, add_assoc]

omit [FieldArithmetic K] [AngleArithmetic K] in
theorem balance_erase {id : NodeId} (apart : ∀ n ∈ nodes, n.id ≠ id) :
    balance ρ x t nodes { flow with pending := flow.pending.erase id } =
      balance ρ x t nodes flow := by
  have others : (nodes.map fun n => inflow ρ (flow.pending.erase id)[n.id]? (directional ρ x t n)) =
      nodes.map fun n => inflow ρ flow.pending[n.id]? (directional ρ x t n) := by
    refine List.map_congr_left ?_
    intro n hn
    rw [Std.HashMap.getElem?_erase, if_neg (by simpa using (apart n hn).symm)]
  rw [balance, balance, others]

theorem signature_operands_plain : ∀ s ∈ signatures, Shape.genericScalar ∉ s.operands := by
  decide +kernel

omit [Field K] [FieldArithmetic K] [AngleArithmetic K] in
/-- The pending gradient of a node is taken out of the balance. -/
theorem takePending?_triple {rest : List (Node K)} [Field K] (below : e.Reaches n)
    (apart : ∀ m ∈ rest, m.id ≠ n.id) {q : K} :
    Triple (fun s => Flowing Φ ρ e deps s.2 ∧ (Φ → balance ρ x t (n :: rest) s.2 = q))
      (Registry.takePending? n.id)
      (fun g? s => (∀ g ∈ g?, (∃ y ∈ deps, n.Reaches y) ∧
          Denotes Φ ρ g n.shape (g.value Standard.meaning ρ)) ∧
        Flowing Φ ρ e deps s.2 ∧
          (Φ → balance ρ x t rest s.2 = q - inflow ρ g? (directional ρ x t n))) never := by
  refine .take ?_
  intro s hs
  rcases s with ⟨w, flow⟩
  rcases hs with ⟨flowing, balanced⟩
  refine ⟨fun g found => (flowing.pending n below g found).2, ⟨?_, flowing.reached⟩, fun hΦ => ?_⟩
  · -- what is still pending was pending before
    intro m hm g found
    dsimp only at found
    rw [Std.HashMap.getElem?_erase] at found
    split at found
    · exact absurd found nofun
    · exact flowing.pending m hm g found
  · rw [balance_erase apart, ← balanced hΦ, balance_cons, add_sub_cancel_left]

/-- The contributions of a hook replace the gradient that it was given. -/
theorem gradient_triple (h : Sweepable Φ ρ x t e deps) {rest operands : List (Node K)} {id : NodeId}
    {o : Operator} (sorted : Node.UsersFirst rest)
    (below : e.Reaches (.application id o.signature operands)) (follow : ∀ m ∈ operands, m ∈ rest)
    (hg : Denotes Φ ρ g o.signature.result (g.value Standard.meaning ρ))
    {gradient : Node K → List (Node K) → Recipe K (Contribution K) Unit Unit}
    (hook : (o.definition : Definition K).hooks.gradient = some gradient) {q : K} :
    Triple
      (fun s => Flowing Φ ρ e deps s.2 ∧ (Φ → balance ρ x t rest s.2 =
        q - inflow ρ (some g) (directional ρ x t (.application id o.signature operands))))
      ((gradient g operands).run (fun c => Work.within ((Registry.standard : Registry K).make c))
        ((Registry.standard : Registry K).contribute (Registry.relevantTo e deps))
        fun e => Work.within (Work.refuse e))
      (fun _ s => Flowing Φ ρ e deps s.2 ∧ (Φ → balance ρ x t rest s.2 = q)) never := by
  rcases Typed.operator (h.typed.of_reaches below) with ⟨p, same, shapes, operandsTyped⟩
  rw [same] at shapes
  have reaches (m : Node K) (hm : m ∈ operands) : e.Reaches m := below.trans (.of_mem_operands hm)
  have moves : MoveAll Φ ρ (dualValue ρ x t) operands o.signature.operands := by
    rw [← shapes]
    exact .of_forall fun m hm => moves_of_reaches h.typed h.moving (reaches m hm)
  let given := q - inflow ρ (some g) (directional ρ x t (.application id o.signature operands))
  -- what the contributions have carried so far is in the balance again
  refine Triple.weaken ((propagates o moves gradient g _ hook hg).triple
    (fun asked (s : Workspace K × Flow K) => Flowing Φ ρ e deps s.2 ∧
      (Φ → balance ρ x t rest s.2 = given + carried ρ (dualValue ρ x t) asked)) ?_ ?_) ?_ ?_
    fun _ _ h => h
  · -- work on the workspace leaves the gradients alone
    intro asked k p grants
    exact Triple.inside (fun flow => Flowing Φ ρ e deps flow ∧
      (Φ → balance ρ x t rest flow = given + carried ρ (dualValue ρ x t) asked))
      (carries_make k p grants)
  · -- a contribution goes to an operand, which comes later in the order
    intro asked c p granted
    rcases c with ⟨m, part⟩
    rcases granted with ⟨⟨mem, C, hC⟩, next⟩
    have denotes : Denotes Φ ρ part m.shape (part.value Standard.meaning ρ) :=
      hC.of_eq fun hΦ => (hC.value hΦ).symm
    -- no operator takes an operand of the generic scalar shape
    have addable (flow : Flow K) : Addable m flow := by
      intro generic
      have shape : m.shape ∈ o.signature.operands := shapes ▸ List.mem_map_of_mem mem
      exact absurd (generic ▸ shape) (signature_operands_plain _ (signature_mem_signatures o))
    refine Triple.weaken (contribute_triple h sorted (reaches m mem) (fun _ => follow m mem) denotes
      (q := given + carried ρ (dualValue ρ x t) asked)) ?_ ?_ fun _ _ h => h
    · -- nothing has been contributed yet
      intro s hs
      exact ⟨hs.1, addable s.2, hs.2⟩
    · -- all together the contributions carry what the incoming gradient carried
      intro _ s hs
      refine ⟨next, hs.1, fun hΦ => ?_⟩
      rw [hs.2 hΦ, carried, carried, List.map_append, List.sum_append, add_assoc]
      simp
  · intro s hs
    refine ⟨hs.1, fun hΦ => ?_⟩
    rw [hs.2 hΦ]
    exact (add_zero given).symm
  · intro _ s hs
    rcases hs with ⟨asked, passedOn, flowing, balanced⟩
    refine ⟨flowing, fun hΦ => ?_⟩
    have all : carried ρ (dualValue ρ x t) asked =
        inflow ρ (some g) (directional ρ x t (.application id o.signature operands)) := by
      rw [passedOn hΦ, directional, dualValue_application]
      rfl
    rw [balanced hΦ, all]
    exact sub_add_cancel q _

/-- A node that is visited passes on what is pending for it. -/
theorem propagate_triple (h : Sweepable Φ ρ x t e deps) {rest : List (Node K)}
    (sorted : Node.UsersFirst (n :: rest)) (below : e.Reaches n) {q : K} :
    Triple (fun s => Flowing Φ ρ e deps s.2 ∧ (Φ → balance ρ x t (n :: rest) s.2 = q))
      ((Registry.standard : Registry K).propagate (Registry.relevantTo e deps) n)
      (fun _ s => Flowing Φ ρ e deps s.2 ∧ (Φ → balance ρ x t rest s.2 = q)) never := by
  cases sorted with
  | cons follow apart sortedRest =>
  cases n with
  -- only applications have something pending
  | constant | leaf =>
      refine .value fun s ⟨flowing, balanced⟩ => ⟨flowing, fun hΦ => ?_⟩
      rw [← balanced hΦ, balance_cons, flowing.pending_eq_none below rfl]
      exact (zero_add _).symm
  | application id s operands =>
      rcases Typed.operator (h.typed.of_reaches below) with ⟨o, rfl, shapes, operandsTyped⟩
      rw [Registry.propagate]
      refine (takePending?_triple below apart).bind fun g? => .assuming fun taken => ?_
      cases g? with
      | none =>
          refine .value fun s ⟨flowing, balanced⟩ => ⟨flowing, fun hΦ => ?_⟩
          rw [balanced hΦ]
          exact sub_zero q
      | some incoming =>
          rcases taken incoming rfl with ⟨⟨y, hy, above⟩, denotes⟩
          dsimp only
          split
          · -- a zero gradient is not passed on, and carries nothing
            rename_i zero
            refine Triple.within fun _ => .record fun _ ⟨flowing, balanced⟩ => ?_
            refine ⟨flowing, fun hΦ => ?_⟩
            have moving := (h.moving hΦ).of_reaches below
            have tangent := (hasShape_dualValue (h.typed.of_reaches below) moving).tangent
            have nothing : inflow ρ (some incoming)
                (directional ρ x t (.application id o.signature operands)) = 0 := by
              rw [inflow, Option.elim_some, denotes.eq_zero zero hΦ]
              exact Literal.zero_dot tangent
            rw [balanced hΦ, nothing, sub_zero]
          · -- an operator without a hook is not above a leaf that is asked for
            have differentiable : o.IsDifferentiable := by
              rw [o.isDifferentiable_iff, ← not_or]
              exact fun named => h.smooth y hy id _ operands below named above
            rcases Option.isSome_iff_exists.1 (o.gradient_isSome (K := K) differentiable) with
              ⟨gradient, hook⟩
            rw [o.hooks_eq, hook]
            refine Triple.bind (m := fun _ s => Flowing Φ ρ e deps s.2 ∧ (Φ → balance ρ x t rest s.2 =
              q - inflow ρ (some incoming)
                (directional ρ x t (.application id o.signature operands))))
              (.within fun _ => .record fun _ hs => hs) fun _ => ?_
            exact gradient_triple h sortedRest below follow denotes hook

/-! ## The sweep -/

/-- Visiting the nodes in order brings everything that is pending to the leaves. -/
theorem sweep_triple (h : Sweepable Φ ρ x t e deps) (sorted : Node.UsersFirst nodes)
    (below : ∀ n ∈ nodes, e.Reaches n) {q : K} :
    Triple (fun s => Flowing Φ ρ e deps s.2 ∧ (Φ → balance ρ x t nodes s.2 = q))
      (nodes.forM ((Registry.standard : Registry K).propagate (Registry.relevantTo e deps)))
      (fun _ s => Flowing Φ ρ e deps s.2 ∧ (Φ → balance ρ x t [] s.2 = q)) never := by
  induction nodes with
  | nil => exact .value fun _ hs => hs
  | cons n rest ih =>
      have sortedRest : Node.UsersFirst rest := by
        cases sorted with
        | cons _ _ sortedRest => exact sortedRest
      rw [List.forM]
      -- the balance after a visit is the balance that the rest of the sweep starts with
      refine (propagate_triple h sorted (below n List.mem_cons_self)).bind fun _ => ?_
      exact ih sortedRest fun m hm => below m (List.mem_cons_of_mem n hm)

/-- What is known of the gradients at the end of a sweep. -/
structure Swept (Φ : Prop) (ρ : Assignment K) (x : Node K) (t : Literal K) (e : Node K)
    (deps : List (Node K)) (seed : Node K) (gradients : Gradients K) : Prop where
  reached : ∀ y ∈ deps, ∀ g, gradients.get? y = some g →
    Denotes Φ ρ g y.shape (g.value Standard.meaning ρ)
  adjoint : Φ → inflow ρ (gradients.get? x) t =
    (seed.value Standard.meaning ρ).dot (directional ρ x t e)

theorem backpropFrom_triple {seed : Node K} (h : Sweepable Φ ρ x t e deps)
    (hs : Denotes Φ ρ seed e.shape (seed.value Standard.meaning ρ)) :
    Triple (fun _ => True) ((Registry.standard : Registry K).backpropFrom e deps seed)
      (fun gradients _ => Swept Φ ρ x t e deps seed gradients) never := by
  have accepted := Registry.forM_checkDependency_iff.2 h.leaves
  have alone : Node.Coherent [e] := h.coherent.of_subset (by simp)
  have order (n : Node K) : n ∈ e.postOrder.reverse ↔ e.Reaches n := by
    rw [List.mem_reverse, Node.mem_postOrder_iff alone]
  -- the nodes are visited before their operands
  have sorted := Node.usersFirst_postOrder alone
  rw [Registry.backpropFrom, accepted]
  refine Triple.bind (m := fun _ _ => True) (.value fun _ _ => trivial) fun _ => ?_
  dsimp only
  rw [if_neg (not_not_intro hs.shape)]
  -- what the seed carries is all there is in the balance, from the beginning to the end
  let q := carriedBy ρ (dualValue ρ x t) ⟨e, seed⟩
  have first := contribute_triple h sorted (.refl e) (fun _ => (order e).2 (.refl e)) hs (q := 0)
  refine Triple.starting (Triple.bind (m := fun _ s => Flowing Φ ρ e deps s.2 ∧
    (Φ → balance ρ x t e.postOrder.reverse s.2 = q)) (first.weaken ?_ ?_ fun _ _ h => h) fun _ => ?_)
  · intro s hs
    rcases s with ⟨w, flow⟩
    rcases hs with ⟨_, rfl⟩
    refine ⟨flowing_empty, fun _ => ⟨Std.HashMap.getElem?_empty, Gradients.get?_empty e⟩, ?_⟩
    exact fun _ => balance_empty _
  · refine fun _ s ⟨flowing, balanced⟩ => ⟨flowing, fun hΦ => ?_⟩
    rw [balanced hΦ, zero_add]
  · refine (sweep_triple h sorted fun n hn => (order n).1 hn).bind fun _ => ?_
    intro s hs
    rcases s with ⟨w, flow⟩
    rcases hs with ⟨flowing, balanced⟩
    refine ⟨flowing.reached, fun hΦ => ?_⟩
    have reached : balance ρ x t [] flow = inflow ρ (flow.gradients.get? x) t := zero_add _
    rw [← reached, balanced hΦ]
    rfl

/-! ## The gradients -/

/-- A gradient reaches a leaf if the expression changes along a tangent of the leaf, unless it does so
at right angles to the seed. -/
theorem backpropFrom_reaches {seed : Node K} (h : Sweepable True ρ x t e deps)
    (hs : Denotes True ρ seed e.shape (seed.value Standard.meaning ρ))
    (changes : (seed.value Standard.meaning ρ).dot (directional ρ x t e) ≠ 0) (w : Workspace K) :
    ∃ gradients w' g, ((Registry.standard : Registry K).backpropFrom e deps seed).runIn w =
      (.ok gradients, w') ∧ gradients.get? x = some g := by
  rcases (backpropFrom_triple h hs).runIn_eq_ok (w := w) trivial with ⟨gradients, w', run, swept⟩
  have adjoint := swept.adjoint trivial
  cases found : gradients.get? x with
  | some g => exact ⟨gradients, w', g, run, found⟩
  | none =>
      rw [found] at adjoint
      exact absurd adjoint.symm changes

/-- Reverse-mode differentiation is the adjoint of forward-mode differentiation: the inner product of
the seed with the directional derivative along a tangent of a leaf is the inner product of the
gradient of the leaf with the tangent. -/
theorem backprop_adjoint {seed : Node K}
    (typed : e.WellTyped (Registry.standard : Registry K).Knows)
    (seedTyped : seed.WellTyped (Registry.standard : Registry K).Knows)
    (shape : seed.shape = e.shape) (leaves : ∀ x ∈ deps, x.isLeaf = true)
    (coherent : Node.Coherent (e :: deps)) (smooth : ∀ x ∈ deps, SmoothAbove x e)
    (ws : Workspace K) :
    ∃ gradients ws',
      ((Registry.standard : Registry K).backpropFrom e deps seed).runIn ws = (.ok gradients, ws') ∧
        ∀ x ∈ deps, ∀ now : Workspace K, ∃ g later, (gradients.getOrZero x).runIn now = (.ok g, later) ∧
          g.shape = x.shape ∧ g.WellTyped (Registry.standard : Registry K).Knows ∧
          ∀ (ρ : Assignment K) (t : Literal K), ρ.Fits e → ρ.Fits seed → t.HasShape x.shape →
            (seed.value Standard.meaning ρ).dot (directional ρ x t e) =
              (g.value Standard.meaning ρ).dot t := by
  let fitting (i : Assignment K × Node K × Literal K) : Prop :=
    (i.1.Fits e ∧ i.1.Fits seed) ∧ i.2.1 ∈ deps ∧ i.2.2.HasShape i.2.1.shape
  -- the run is the same for every assignment, leaf and tangent
  have triple (i : Assignment K × Node K × Literal K) : Triple (fun _ => True)
      ((Registry.standard : Registry K).backpropFrom e deps seed)
      (fun gradients _ => Swept (fitting i) i.1 i.2.1 i.2.2 e deps seed gradients) never := by
    refine backpropFrom_triple ⟨typed, coherent, leaves, smooth, fun hΦ => ?_, fun hΦ => hΦ.2.1⟩ ?_
    · refine ⟨fun y hy same => ?_, hΦ.2.2, hΦ.1.1, smooth _ hΦ.2.1⟩
      exact coherent e List.mem_cons_self _ (List.mem_cons_of_mem e hΦ.2.1) y _ hy (.refl _) same
    · rw [← shape]
      exact .of_typed seedTyped fun hΦ => hΦ.1.2
  have some_assignment : Assignment K := fun _ => .zero .scalar
  rcases Triple.runIn_eq_ok_forall (some_assignment, e, .zero .scalar) triple (w := ws) trivial with
    ⟨gradients, ws', run, swept⟩
  refine ⟨gradients, ws', run, fun x hx now => ?_⟩
  have adjoint (ρ : Assignment K) (t : Literal K) (fits : ρ.Fits e) (fitsSeed : ρ.Fits seed)
      (tangent : t.HasShape x.shape) :=
    (swept (ρ, x, t)).adjoint ⟨⟨fits, fitsSeed⟩, hx, tangent⟩
  rw [Gradients.getOrZero]
  cases found : gradients.get? x with
  | some g =>
      have denotes := (swept (some_assignment, x, .zero .scalar)).reached x hx g found
      refine ⟨g, now, rfl, denotes.shape, denotes.typed, fun ρ t fits fitsSeed tangent => ?_⟩
      rw [← adjoint ρ t fits fitsSeed tangent, found]
      rfl
  -- nothing has reached the leaf: its gradient is zero
  | none =>
      have zero : (Literal.zero x.shape : Literal K).HasShape x.shape := Literal.hasShape_zero _
      refine ⟨.constant now.nextId (.zero x.shape), _, rfl, zero.shape, .constant _ zero.complete, ?_⟩
      intro ρ t fits fitsSeed tangent
      rw [← adjoint ρ t fits fitsSeed tangent, found]
      exact (Literal.zero_dot tangent).symm

/-- The gradient of a product by one factor is the other factor. -/
theorem backprop_adjoint_product :
    let x : Node ℚ := .leaf 4 "x" .scalar
    let y : Node ℚ := .leaf 5 "y" .scalar
    let product : Node ℚ := .application 6 Operator.multiplication.signature [x, y]
    let seed : Node ℚ := .constant 7 (.scalar 1)
    ∃ gradients ws', ((Registry.standard : Registry ℚ).backpropFrom product [x, y] seed).runIn
        .standard = (.ok gradients, ws') ∧
      ∃ g later, (gradients.getOrZero x).runIn ws' = (.ok g, later) ∧
        ∀ ρ : Assignment ℚ, ρ.Fits product →
          (g.value Standard.meaning ρ).dot (.scalar 1) = (ρ 5).component 0 := by
  intro x y product seed
  have typed : product.WellTyped (Registry.standard : Registry ℚ).Knows :=
    typed_application .multiplication 6 rfl (by
      simpa [x, y] using ⟨Node.WellTyped.leaf 4 "x" .scalar, Node.WellTyped.leaf 5 "y" .scalar⟩)
  have coherent : Node.Coherent [product, x, y] :=
    .of_closed (by simp [product, x, y]) (by simp [product, x, y])
  have plain : Smooth x ∧ Smooth y :=
    ⟨Node.appliesOnly_of_plain rfl, Node.appliesOnly_of_plain rfl⟩
  have smooth : Smooth product := by
    rw [smooth_application]
    exact ⟨⟨nofun, nofun⟩, List.forall_mem_cons.2 ⟨plain.1, List.forall_mem_singleton.2 plain.2⟩⟩
  have seedTyped : seed.WellTyped (Registry.standard : Registry ℚ).Knows := .constant 7 rfl
  rcases backprop_adjoint typed seedTyped rfl (by simp [x, y, Node.isLeaf]) coherent
    (fun z _ => smooth.above z) .standard with ⟨gradients, ws', run, adjoint⟩
  rcases adjoint x List.mem_cons_self ws' with ⟨g, later, got, _, _, adjoint⟩
  refine ⟨gradients, ws', run, g, later, got, fun ρ fits => ?_⟩
  have one : (Literal.scalar (1 : ℚ)).HasShape .scalar := Literal.hasShape_scalar 1
  rcases (fits 4 "x" .scalar (.of_mem_operands (by simp [product, x]))).exists_scalar with ⟨α, hα⟩
  rcases (fits 5 "y" .scalar (.of_mem_operands (by simp [product, y]))).exists_scalar with ⟨β, hβ⟩
  have moving : ρ.along x (.scalar 1) 4 = .scalar ⟨α, 1⟩ := by
    have here : 4 = x.id := rfl
    rw [Assignment.along_of_eq here, hα]
    rfl
  have still : ρ.along x (.scalar 1) 5 = .scalar ⟨β, 0⟩ := by
    rw [Assignment.along_of_ne (by simp [x]), hβ]
    rfl
  have rate : directional ρ x (.scalar 1) product = .scalar (1 * β + α * 0) := by
    calc directional ρ x (.scalar 1) product
        = (Literal.zipWith Arithmetic.mul (ρ.along x (.scalar 1) 4)
            (ρ.along x (.scalar 1) 5)).tangent := by
          rw [directional, dualValue_application, ← Operator.value_multiplication]
          rfl
      _ = .scalar (1 * β + α * 0) := by
          rw [moving, still, Literal.zipWith_scalar, Literal.tangent_scalar, Dual.infinitesimal_mul]
  calc (g.value Standard.meaning ρ).dot (.scalar 1)
      = (seed.value Standard.meaning ρ).dot (directional ρ x (.scalar 1) product) :=
        (adjoint ρ (.scalar 1) fits (ρ.fits_constant 7 _) one).symm
    _ = 1 * (1 * β + α * 0) := by
        rw [rate]
        exact Literal.dot_scalar 1 _
    _ = (ρ 5).component 0 := by
        rw [hβ, Literal.component_scalar]
        ring

end

end Standard

end SymbolicLinalg
