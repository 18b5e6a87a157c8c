import SymbolicLinalg.Derivative
import SymbolicLinalg.Proofs.DualValue
import SymbolicLinalg.Proofs.PostOrder
import SymbolicLinalg.Proofs.Rational
import SymbolicLinalg.Proofs.Simplification

/-!
# Derivation — forward differentiation is exact

The pass remembers a derivative for every node it has met.  Its invariant `Remembers` says that what
it remembers for a node of the expression stands for the tangent of the node, and that the node is
smooth; by induction on the expression a derivative is found if and only if the expression is smooth.

* `derivative_exact`: the derivative by a leaf is the tangent in dual numbers, where the leaf moves
  along the identity of its shape.
-/

namespace SymbolicLinalg

namespace Registry

variable {K : Type} [Arithmetic K] {r : Registry K} {w : Node K} {again : Node K → Pass K (Node K)}

omit [Arithmetic K] in
/-- Under the identity of an operand stands what belongs to the operand, if no other has it. -/
theorem lookup_operand {operands : List (Node K)} {n : Node K} (derive : Node K → Pass K (Node K))
    (hn : n ∈ operands) (unique : ∀ m ∈ operands, m.id = n.id → m = n) :
    (operands.map fun m => (m.id, derive m)).lookup n.id = some (derive n) := by
  induction operands with
  | nil => exact absurd hn List.not_mem_nil
  | cons m rest ih =>
      rw [List.map_cons, List.lookup_cons]
      by_cases same : m.id = n.id
      · rw [unique m List.mem_cons_self same]
        simp
      · have differs : (n.id == m.id) = false := by simpa using fun h => same h.symm
        rw [differs]
        rcases List.mem_cons.1 hn with rfl | hn
        · exact absurd rfl same
        · exact ih hn fun k hk => unique k (List.mem_cons_of_mem m hk)

/-- A request for the derivative of an operand is answered by differentiating it. -/
theorem answerDerivative_eq {operands : List (Node K)} {n : Node K} (hn : n ∈ operands)
    (unique : ∀ m ∈ operands, m.id = n.id → m = n) :
    answerDerivative (derivesWith r w again operands) again n = deriveWith r w again n := by
  rw [answerDerivative, derivesWith_eq_map, lookup_operand _ hn unique]

end Registry

namespace Standard

variable {K : Type} [Arithmetic K] [Numeral K]

/-! ## The invariant -/

/-- What has been found out about a node: it is smooth, and its derivative stands for its tangent. -/
structure Derived (Φ : Prop) (ρ : Assignment K) (D : Node K → Literal (Dual K)) (n m : Node K) :
    Prop where
  smooth : Smooth n
  denotes : Denotes Φ ρ m n.shape (D n).tangent

/-- Whatever is remembered of the nodes of an expression is true. -/
def Remembers (Φ : Prop) (ρ : Assignment K) (D : Node K → Literal (Dual K)) (e : Node K)
    (memo : Memo K) : Prop :=
  ∀ n, e.Reaches n → ∀ m, memo[n.id]? = some m → Derived Φ ρ D n m

variable {Φ : Prop} {ρ : Assignment K} {D : Node K → Literal (Dual K)} {e w : Node K}
  {again : Node K → Pass K (Node K)}

/-! ## The pass -/

/-- Whatever a table holds for the nodes of an expression is related to them. -/
def Records (R : Node K → Node K → Prop) (e : Node K) (memo : Memo K) : Prop :=
  ∀ n, e.Reaches n → ∀ m, memo[n.id]? = some m → R n m

section

variable {R : Node K → Node K → Prop} {n : Node K}

omit [Arithmetic K] [Numeral K] in
theorem Records.empty : Records R e ∅ := by
  intro n _ m found
  simp at found

omit [Arithmetic K] [Numeral K] in
theorem Records.insert {memo : Memo K} {m : Node K} (h : Records R e memo)
    (unique : ∀ x, e.Reaches x → x.id = n.id → x = n) (related : R n m) :
    Records R e (memo.insert n.id m) := by
  intro x below y found
  rw [Std.HashMap.getElem?_insert] at found
  split at found
  · rename_i same
    obtain rfl := Option.some.inj found
    rw [unique x below (beq_iff_eq.1 same).symm]
    exact related
  · exact h x below y found

omit [Arithmetic K] [Numeral K] in
/-- Looking a node up, and else finding its derivative and remembering it. -/
theorem recording_triple {compute : Pass K (Node K)}
    {fault : Fault → Workspace K × Memo K → Prop} (below : e.Reaches n)
    (unique : ∀ x, e.Reaches x → x.id = n.id → x = n)
    (h : Triple (fun s => Records R e s.2) compute (fun m s => R n m ∧ Records R e s.2) fault) :
    Triple (fun s => Records R e s.2)
      (do
        match ← Pass.known? n.id with
        | some known => return known
        | none =>
            let derived ← compute
            Pass.remember n.id derived
            return derived)
      (fun m s => R n m ∧ Records R e s.2) fault := by
  refine (Pass.known?_triple n.id).bind fun known? => ?_
  cases known? with
  -- what is remembered of a node below the root is related to it
  | some m =>
      intro s hs
      rcases hs with ⟨records, found⟩
      exact ⟨records n below m found.symm, records⟩
  | none =>
      -- the result is remembered for this node alone, since its identity is its own
      refine (h.strengthen fun s hs => hs.1).bind ?_
      intro m
      refine Triple.bind (m := fun _ s => R n m ∧ Records R e s.2)
        (Pass.remember_triple fun s hs => ⟨hs.1, hs.2.insert unique hs.1⟩) fun _ => ?_
      exact .value fun _ hs => hs

end

/-- The tangent of a leaf that moves along the identity of its shape, or stays. -/
theorem tangent_leaf {id : NodeId} {name : String} {s : Shape}
    (h : Moving ρ w (.one w.shape) (.leaf id name s)) :
    (if id = w.id then Literal.one s else .zero s : Literal K) =
      (dualValue ρ w (.one w.shape) (.leaf id name s)).tangent := by
  change _ = (ρ.along w (.one w.shape) id).tangent
  by_cases same : id = w.id
  · rcases h.along_leaf same with ⟨along, leaf, tangent⟩
    have shape : w.shape = s := tangent.shape
    rw [if_pos same, along, shape, Literal.tangent_withTangent leaf (Literal.hasShape_one s)]
  · have leaf : (ρ id).HasShape s := h.fits id name s (.refl _)
    rw [if_neg same, Assignment.along_of_ne same, Literal.tangent_steady leaf]

section

variable [Field K] [FieldArithmetic K] [AngleArithmetic K]

/-- Carrying a `deriv` hook out, if differentiating the operands is right. -/
theorem deriv_triple {o : Operator} {operands : List (Node K)}
    (moves : MoveAll Φ ρ D operands o.signature.operands) {answer : Node K → Pass K (Node K)}
    {unsmooth : Prop} (gives : ∀ n ∈ operands, ¬ Smooth n → unsmooth)
    (answers : ∀ n ∈ operands, Triple (fun s => Remembers Φ ρ D e s.2) (answer n)
      (fun m s => Derived Φ ρ D n m ∧ Remembers Φ ρ D e s.2) fun _ _ => ¬ Smooth n)
    {deriv : Node K → List (Node K) → Recipe K (Node K) (Node K) (Node K)}
    (hook : (o.definition : Definition K).hooks.deriv = some deriv) :
    Triple (fun s => Remembers Φ ρ D e s.2)
      ((deriv w operands).run (fun c => Work.within ((Registry.standard : Registry K).make c))
        answer fun e => Work.within (Work.refuse e))
      (fun m s => (∀ n ∈ operands, Smooth n) ∧
        Denotes Φ ρ m o.signature.result (o.value (operands.map D)).tangent ∧
          Remembers Φ ρ D e s.2)
      fun _ _ => unsmooth := by
  -- the operands that have been asked for so far are smooth
  refine Triple.weaken ((differentiates o moves deriv w hook).triple
    (fun asked (s : Workspace K × Memo K) => (∀ n ∈ asked, Smooth n) ∧ Remembers Φ ρ D e s.2)
    ?_ ?_) (fun s hs => ⟨by simp, hs⟩) ?_ fun _ _ h => h
  · -- work on the workspace does not touch the memo
    intro asked k p grants
    exact Triple.inside (fun memo => (∀ n ∈ asked, Smooth n) ∧ Remembers Φ ρ D e memo)
      (carries_make k p grants)
  · -- the operand that is asked for is differentiated, and turns out to be smooth
    intro asked n p granted
    rcases granted with ⟨hn, next⟩
    refine Triple.assuming ?_
    intro smooth
    refine (answers n hn).weaken (fun _ h => h) ?_ fun _ _ => gives n hn
    intro m s hs
    rcases hs with ⟨derived, remembers⟩
    refine ⟨next m derived.denotes, fun k hk => ?_, remembers⟩
    rcases List.mem_append.1 hk with hk | hk
    · exact smooth k hk
    · rw [List.mem_singleton.1 hk]
      exact derived.smooth
  · -- all operands have been asked for
    intro m s hs
    rcases hs with ⟨asked, ⟨all, denotes⟩, smooth, remembers⟩
    exact ⟨fun n hn => smooth n (all hn), denotes, remembers⟩

/-- Differentiating an application, if differentiating its operands is right. -/
theorem differentiate_triple {id : NodeId} {o : Operator} {operands : List (Node K)}
    (moves : MoveAll Φ ρ D operands o.signature.operands) {answer : Node K → Pass K (Node K)}
    (answers : ∀ n ∈ operands, Triple (fun s => Remembers Φ ρ D e s.2) (answer n)
      (fun m s => Derived Φ ρ D n m ∧ Remembers Φ ρ D e s.2) fun _ _ => ¬ Smooth n)
    (value : D (.application id o.signature operands) = o.value (operands.map D)) :
    Triple (fun s => Remembers Φ ρ D e s.2)
      ((Registry.standard : Registry K).differentiate w id o.signature operands answer)
      (fun m s => Derived Φ ρ D (.application id o.signature operands) m ∧ Remembers Φ ρ D e s.2)
      fun _ _ => ¬ Smooth (.application id o.signature operands) := by
  rw [Registry.differentiate, o.hooks_eq]
  by_cases differentiable : o.IsDifferentiable
  · rcases Option.isSome_iff_exists.1 (o.deriv_isSome (K := K) differentiable) with ⟨deriv, hook⟩
    rw [hook]
    -- an operand that is not smooth makes the application not smooth
    have gives : ∀ n ∈ operands, ¬ Smooth n → ¬ Smooth (.application id o.signature operands) :=
      fun n hn h smooth => h (smooth.of_reaches (.of_mem_operands hn))
    refine Triple.bind (m := fun _ s => Remembers Φ ρ D e s.2)
      (.within fun _ => .record fun _ h => h) fun _ => ?_
    refine (deriv_triple moves gives answers hook).bind ?_
    intro m s hs
    rcases hs with ⟨smooth, denotes, remembers⟩
    -- the check of the shape is passed
    have shape : ¬ m.shape ≠ o.signature.result := not_not_intro denotes.shape
    rw [if_neg shape]
    refine ⟨⟨smooth_application.2 ⟨differentiable, smooth⟩, ?_⟩, remembers⟩
    rw [value]
    exact denotes
  · -- without a hook the work is refused, as it should be
    rw [o.deriv_eq_none differentiable]
    refine Triple.within fun _ => .refuse ?_
    intro _ _ smooth
    exact differentiable (smooth_application.1 smooth).1

theorem deriveWith_triple {n : Node K} (typed : Typed e) (coherent : Node.Coherent [e])
    (unique : Distinguishes e w) (below : e.Reaches n) :
    let D := dualValue ρ w (.one w.shape)
    let Φ := ρ.Fits e ∧ Smooth e
    Triple (fun s => Remembers Φ ρ D e s.2)
      ((Registry.standard : Registry K).deriveWith w again n)
      (fun m s => Derived Φ ρ D n m ∧ Remembers Φ ρ D e s.2) fun _ _ => ¬ Smooth n := by
  intro D Φ
  have moving (hΦ : Φ) : Moving ρ w (.one w.shape) e :=
    ⟨unique, Literal.hasShape_one _, hΦ.1, hΦ.2.above w⟩
  have own {n : Node K} (below : e.Reaches n) (x : Node K) (hx : e.Reaches x)
      (same : x.id = n.id) : x = n :=
    coherent.eq_of_reaches hx below same
  have typed_n := typed.of_reaches below
  induction n using Node.induct with
  | constant id v =>
      rw [Registry.deriveWith]
      refine recording_triple (R := Derived Φ ρ D) below (own below) ?_
      have complete : v.HasShape v.shape := by
        cases typed_n with
        | constant _ complete => exact ⟨rfl, complete⟩
      refine Triple.inside (Remembers Φ ρ D e) (newConstant_triple fun i => ?_)
      refine ⟨Node.appliesOnly_of_plain rfl, ?_⟩
      refine (Denotes.constant i (Literal.hasShape_zero v.shape)).of_eq fun _ => ?_
      exact (Literal.tangent_steady complete).symm
  | leaf id name s =>
      rw [Registry.deriveWith]
      refine recording_triple (R := Derived Φ ρ D) below (own below) ?_
      have shape : (if id = w.id then Literal.one s else .zero s : Literal K).HasShape s := by
        split
        · exact Literal.hasShape_one s
        · exact Literal.hasShape_zero s
      refine Triple.inside (Remembers Φ ρ D e) (newConstant_triple fun i => ?_)
      refine ⟨Node.appliesOnly_of_plain rfl, ?_⟩
      refine (Denotes.constant i shape).of_eq ?_
      intro hΦ
      exact tangent_leaf ((moving hΦ).of_reaches below)
  | application id s operands ih =>
      rcases Typed.operator typed_n with ⟨o, rfl, shapes, operandsTyped⟩
      have reaches (m : Node K) (hm : m ∈ operands) : e.Reaches m :=
        below.trans (.of_mem_operands hm)
      rw [Registry.deriveWith]
      refine recording_triple (R := Derived Φ ρ D) below (own below) ?_
      -- the operands lie below the root, so they move as it does
      have moves : MoveAll Φ ρ D operands o.signature.operands := by
        rw [← shapes]
        exact .of_forall fun m hm =>
          moves_of_reaches typed moving (reaches m hm)
      refine differentiate_triple moves (fun m hm => ?_) (dualValue_application id o operands)
      rw [Registry.answerDerivative_eq hm fun k hk same =>
        own (reaches m hm) k (reaches k hk) same]
      exact ih m hm (reaches m hm) (operandsTyped m hm)

theorem derivative_triple (typed : Typed e) (coherent : Node.Coherent [e, w])
    (leaf : w.isLeaf = true) :
    Triple (fun _ => True) ((Registry.standard : Registry K).derivative e w)
      (fun m _ => Derived (ρ.Fits e ∧ Smooth e) ρ (dualValue ρ w (.one w.shape)) e m)
      fun _ _ => ¬ Smooth e := by
  have unique : Distinguishes e w := fun y hy same =>
    coherent e (by simp) w (by simp) y w hy (.refl w) same
  have alone : Node.Coherent [e] := coherent.of_subset (by simp)
  have accepted : Registry.checkVariable w = .ok () := if_pos leaf
  rw [Registry.derivative, accepted, Registry.deriveNext_eq]
  refine Triple.bind (m := fun _ _ => True) (.value fun _ _ => trivial) fun _ => ?_
  -- the pass starts with nothing remembered
  refine Triple.starting ((deriveWith_triple typed alone unique (.refl e)).weaken ?_
    (fun _ _ h => h.1) fun _ _ h => h)
  rintro ⟨_, memo⟩ ⟨_, rfl⟩
  exact Records.empty

/-! ## The derivative -/

/-- A derivative is found exactly if the expression is smooth.  It has the shape of the expression,
and its value is the rate of change of the expression where the leaf moves along the identity. -/
theorem derivative_exact (typed : e.WellTyped (Registry.standard : Registry K).Knows)
    (leaf : w.isLeaf = true) (coherent : Node.Coherent [e, w]) (ws : Workspace K) :
    ((∃ m ws', ((Registry.standard : Registry K).derivative e w).runIn ws = (.ok m, ws')) ↔
        Smooth e) ∧
      ∀ m ws', ((Registry.standard : Registry K).derivative e w).runIn ws = (.ok m, ws') →
        m.shape = e.shape ∧ m.WellTyped (Registry.standard : Registry K).Knows ∧
        ∀ ρ : Assignment K, ρ.Fits e →
          ρ.Fits m ∧ m.value Standard.meaning ρ = directional ρ w (.one w.shape) e := by
  have found (ρ : Assignment K) {m : Node K} {ws' : Workspace K}
      (run : ((Registry.standard : Registry K).derivative e w).runIn ws = (.ok m, ws')) :
      Derived (ρ.Fits e ∧ Smooth e) ρ (dualValue ρ w (.one w.shape)) e m :=
    (derivative_triple typed coherent leaf).of_runIn_eq_ok trivial run
  have some_assignment : Assignment K := fun _ => .zero .scalar
  refine ⟨⟨?_, fun smooth => ?_⟩, fun m ws' run => ?_⟩
  · intro succeeds
    rcases succeeds with ⟨m, ws', run⟩
    exact (found some_assignment run).smooth
  · -- the only fault is an expression that is not smooth
    have total : Triple (fun _ => True) ((Registry.standard : Registry K).derivative e w)
        (fun m _ => Derived _ some_assignment _ e m) never :=
      (derivative_triple typed coherent leaf).weaken (fun _ h => h) (fun _ _ h => h)
        fun _ _ unsmooth => unsmooth smooth
    rcases total.runIn_eq_ok (w := ws) trivial with ⟨m, ws', run, _⟩
    exact ⟨m, ws', run⟩
  · have derived := (found some_assignment run).denotes
    refine ⟨derived.shape, derived.typed, fun ρ fits => ?_⟩
    have hΦ : ρ.Fits e ∧ Smooth e := ⟨fits, (found ρ run).smooth⟩
    exact ⟨(found ρ run).denotes.fits hΦ, (found ρ run).denotes.value hΦ⟩

/-- The derivative of the square of a number is twice the number. -/
theorem derivative_exact_square :
    let x : Node ℚ := .leaf 4 "x" .scalar
    let square : Node ℚ := .application 5 Operator.multiplication.signature [x, x]
    ∃ m ws', ((Registry.standard : Registry ℚ).derivative square x).runIn .standard = (.ok m, ws') ∧
      ∀ ρ : Assignment ℚ, ρ.Fits square →
        (m.value Standard.meaning ρ).component 0 = 2 * (ρ 4).component 0 := by
  intro x square
  have coherent : Node.Coherent [square, x] :=
    .of_closed (by simp [square, x]) (by simp [square, x])
  have typed : square.WellTyped (Registry.standard : Registry ℚ).Knows :=
    typed_application .multiplication 5 rfl (by simpa [x] using Node.WellTyped.leaf 4 "x" .scalar)
  have still : Smooth x := Node.appliesOnly_of_plain rfl
  have smooth : Smooth square := by
    rw [smooth_application]
    exact ⟨⟨nofun, nofun⟩, List.forall_mem_cons.2 ⟨still, List.forall_mem_singleton.2 still⟩⟩
  rcases derivative_exact typed rfl coherent .standard with ⟨succeeds, exact⟩
  rcases succeeds.2 smooth with ⟨m, ws', run⟩
  refine ⟨m, ws', run, fun ρ fits => ?_⟩
  have number : (ρ 4).HasShape .scalar :=
    fits 4 "x" .scalar (.of_mem_operands (by simp [square, x]))
  have moving := Literal.hasShape_withTangent number (Literal.hasShape_one .scalar)
  have value : m.value Standard.meaning ρ = .zipWith Arithmetic.add (ρ 4) (ρ 4) := by
    calc m.value Standard.meaning ρ = directional ρ x (.one .scalar) square :=
          ((exact m ws' run).2.2 ρ fits).2
      _ = (Literal.zipWith Arithmetic.mul ((ρ 4).withTangent (.one .scalar))
            ((ρ 4).withTangent (.one .scalar))).tangent := by
          rw [directional, dualValue_application, ← Operator.value_multiplication]
          rfl
      _ = .zipWith Arithmetic.add (ρ 4) (ρ 4) := by
          rw [Literal.tangent_mul moving moving, Literal.realPart_withTangent number
            (Literal.hasShape_one .scalar), Literal.tangent_withTangent number
            (Literal.hasShape_one .scalar), Literal.one_mul rfl number, Literal.mul_one rfl number]
  rw [value, number.component_zipWith number (by decide), RingArithmetic.add_eq, two_mul]

end

end Standard

end SymbolicLinalg
