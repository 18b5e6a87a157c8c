import SymbolicLinalg.Proofs.Computation

/-!
# Annihilation — applications that are zero because an operand is

Over a field a product with a zero is zero whatever the other factor is, and so are sums and
assemblies of zeros and quotients of zero.  Construction does not leave such applications: by folding
or by a rule of the operator, it comes to the zero constant of the shape of the result.

* `Operator.Annihilates`: the operands for which an operator is zero in this way;
* `make_null`: applying it to them comes to the zero constant.
-/

namespace SymbolicLinalg

/-! ## Zero literals -/

namespace Literal

variable {K : Type} [Arithmetic K] {s : Shape}

theorem neg_zero [Field K] [FieldArithmetic K] :
    (zero s : Literal K).map Arithmetic.neg = zero s := by
  simp [map, zero, ofFn]

theorem transpose_zero : (zero s : Literal K).transpose = zero s := by
  simp only [transpose, get, component_zero]
  rfl

end Literal

namespace Standard

variable {K : Type} [Arithmetic K] {o : Operator} {operands : List (Node K)} {a b n : Node K}
  {r s t : Shape} {v : Literal K}

theorem scalarAt_zeros (count i : Nat) :
    scalarAt (List.replicate count (Literal.zero .scalar : Literal K)) i = Arithmetic.zero := by
  have zero : (List.replicate count (Literal.zero .scalar : Literal K)).getD i (.zero .scalar) =
      .zero .scalar := by
    rw [List.getD_eq_getElem?_getD, List.getElem?_replicate]
    split <;> rfl
  rw [scalarAt, zero, Literal.component_zero]

/-! ## Zero constants -/

/-- The zero constant of a shape. -/
def Null (s : Shape) (n : Node K) : Prop :=
  ∃ id, n = .constant id (.zero s)

theorem Null.eq_of_literal (h : Null s n) (literal : n.literal? = some v) : v = .zero s := by
  rcases h with ⟨id, rfl⟩
  exact (Option.some.inj literal).symm

theorem Null.isZero [Field K] [FieldArithmetic K] (h : Null s n) : n.isZero = true := by
  rcases h with ⟨id, rfl⟩
  simp [Node.isZero, Literal.isZero, Literal.zero, Literal.ofFn]

theorem literals?_null {count : Nat}
    (nulls : List.Forall₂ Null (List.replicate count s) operands) :
    Node.literals? operands = some (List.replicate count (.zero s)) := by
  induction count generalizing operands with
  | zero =>
      cases nulls
      rfl
  | succ count ih =>
      cases nulls with
      | cons first rest =>
          rcases first with ⟨id, rfl⟩
          have others := ih rest
          rw [Node.literals?] at others ⊢
          rw [List.mapM_cons, others]
          rfl

/-- The answer of a rule is the zero constant of a shape. -/
abbrev Nullifies (r : Shape) (rule : Rule K (Option (Node K))) : Prop :=
  rule.Ensures ⟨constants, .none Empty Empty⟩ fun _ n? => ∃ m ∈ n?, Null r m

theorem nullifies_constant : Nullifies r (some <$> Recipe.constant (K := K) (.zero r)) :=
  fun id => ⟨_, rfl, id, rfl⟩

variable [Numeral K]

theorem Null.ofShape (h : Null s n) : OfShape s n := by
  rcases h with ⟨id, rfl⟩
  exact ⟨.constant id (Literal.hasShape_zero s).complete, rfl⟩

/-- The operands are zeros, in the places where this makes an application zero. -/
def Operator.Annihilates (o : Operator) (operands : List (Node K)) : Prop :=
  match o with
  | .addition _ _ | .subtraction _ _ | .negation | .transposition _ _ | .selector _ _ _ _
  | .constructor _ _ => ∀ n ∈ operands, n.isZero = true
  | .multiplication | .scaling _ _ | .innerProduct _ _ | .matrixProduct _ _ | .columnProduct _ _ _
  | .outerProduct _ _ _ => ∃ n ∈ operands, n.isZero = true
  | .division => ∃ n ∈ operands.head?, n.isZero = true
  | .cosine | .sine | .axisRotation _ _ _ | .shift | .axisScaling | .axisAngleRotation
  | .fromHomogeneous => False

section

variable [Field K] [FieldArithmetic K]

/-- Over a field the zero constant is the only zero of a shape. -/
theorem OfShape.null (h : OfShape s n) (zero : n.isZero = true) : Null s n := by
  rcases h with ⟨typed, rfl⟩
  cases typed with
  | constant id complete =>
      have some_assignment : Assignment K := fun _ => .zero .scalar
      have denotes : Denotes True some_assignment (.constant id _) _ _ :=
        .constant id ⟨rfl, complete⟩
      exact ⟨id, congrArg (Node.constant id) (denotes.eq_zero zero trivial)⟩
  | leaf | application => exact absurd zero nofun

theorem nulls_of_ofShape {shapes : List Shape} (made : List.Forall₂ OfShape shapes operands)
    (zeros : ∀ n ∈ operands, n.isZero = true) : List.Forall₂ Null shapes operands := by
  induction made with
  | nil => exact .nil
  | cons first _ ih =>
      rw [List.forall_mem_cons] at zeros
      exact .cons (first.null zeros.1) (ih zeros.2)

/-- Zero is not one. -/
theorem Null.isOne_eq_false (h : Null s n) : n.isOne = false := by
  rcases h with ⟨id, rfl⟩
  by_contra one
  have some_assignment : Assignment K := fun _ => .zero .scalar
  have denotes : Denotes True some_assignment (.constant id (.zero s)) s (.zero s) :=
    .constant id (Literal.hasShape_zero s)
  have same := denotes.eq_one (Bool.of_not_eq_false one) trivial
  -- they differ in the first component
  have corner : (Arithmetic.zero : K) = Arithmetic.one := by
    cases s <;> exact congrArg (Literal.component · 0) same
  simp at corner

/-! ## Rules -/

/-- Operands that are zeros are folded. -/
theorem nullifies_foldingZeros {fold : List (Literal K) → Literal K}
    {rule : List (Node K) → Rule K (Option (Node K))} (count : Nat)
    (made : List.Forall₂ OfShape (List.replicate count s) operands)
    (zeros : ∀ n ∈ operands, n.isZero = true)
    (value : fold (List.replicate count (.zero s)) = .zero r) :
    Nullifies r (foldingFirst fold rule operands) := by
  rw [foldingFirst, literals?_null (nulls_of_ofShape made zeros)]
  exact fun id => ⟨_, rfl, id, congrArg (Node.constant id) value⟩

omit [Field K] [FieldArithmetic K] in
/-- Two operands are folded if both are constants, and are left to the rule otherwise. -/
theorem nullifies_foldingTwo {fold : List (Literal K) → Literal K}
    {rule : List (Node K) → Rule K (Option (Node K))} (ha : OfShape s a) (hb : OfShape t b)
    (value : ∀ v w, v.HasShape s → w.HasShape t → (Null s a → v = .zero s) →
      (Null t b → w = .zero t) → fold [v, w] = .zero r)
    (h : Nullifies r (rule [a, b])) : Nullifies r (foldingFirst fold rule [a, b]) := by
  rw [foldingFirst]
  cases literals : Node.literals? [a, b] with
  | none => exact h
  | some values =>
      have typed : ∀ n ∈ [a, b], Typed n :=
        List.forall_mem_cons.2 ⟨ha.typed, List.forall_mem_singleton.2 hb.typed⟩
      have shapes := literals_hasShape typed literals
      rcases Node.forall₂_of_literals? literals with _ | ⟨first, _ | ⟨second, _ | _⟩⟩
      rename_i v w
      rw [List.map_cons, List.map_singleton, ha.shape, hb.shape] at shapes
      rcases shapes with _ | ⟨hv, _ | ⟨hw, _ | _⟩⟩
      refine fun id => ⟨_, rfl, id, congrArg (Node.constant id) ?_⟩
      exact value v w hv hw (fun null => null.eq_of_literal first) fun null =>
        null.eq_of_literal second

/-- A product of which one factor is zero. -/
theorem nullifies_product {fold : List (Literal K) → Literal K}
    {rule : List (Node K) → Rule K (Option (Node K))} (made : List.Forall₂ OfShape [s, t] operands)
    (zero : ∃ n ∈ operands, n.isZero = true)
    (left : ∀ w, w.HasShape t → fold [.zero s, w] = .zero r)
    (right : ∀ v, v.HasShape s → fold [v, .zero t] = .zero r)
    (h : ∀ a b, OfShape s a → OfShape t b → Null s a ∨ Null t b → Nullifies r (rule [a, b])) :
    Nullifies r (foldingFirst fold rule operands) := by
  rcases made with _ | ⟨ha, _ | ⟨hb, _ | _⟩⟩
  rename_i a b
  have null : Null s a ∨ Null t b := by
    simp only [List.mem_cons, List.not_mem_nil, or_false, exists_eq_or_imp, exists_eq_left] at zero
    exact zero.imp ha.null hb.null
  refine nullifies_foldingTwo ha hb (fun v w hv hw zeroLeft zeroRight => ?_) (h a b ha hb null)
  rcases null with null | null
  · rw [zeroLeft null, left w hw]
  · rw [zeroRight null, right v hv]

omit [Numeral K] in
/-- Where a zero is looked for in both places, one of them will do. -/
theorem nullifies_eitherZero {other : Rule K (Option (Node K))} (null : Null s a ∨ Null t b) :
    Nullifies r (if a.isZero || b.isZero then some <$> Recipe.constant (.zero r) else other) := by
  rw [if_pos]
  · exact nullifies_constant
  · exact Bool.or_eq_true_iff.2 (null.imp Null.isZero Null.isZero)

theorem nullifies_multiplication (made : List.Forall₂ OfShape [.scalar, .scalar] operands)
    (zero : ∃ n ∈ operands, n.isZero = true)
    {optimize : List (Node K) → Rule K (Option (Node K))}
    (hook : (Operator.multiplication.definition : Definition K).hooks.optimize = some optimize) :
    Nullifies .scalar (optimize operands) := by
  cases hook
  refine nullifies_product made zero (fun w hw => Literal.zero_mul hw)
    (fun v hv => Literal.mul_zero hv) fun a b ha hb null => ?_
  change ∃ m ∈ (if a.isZero then some a else if a.isOne then some b
      else if b.isZero then some b else if b.isOne then some a else none), Null .scalar m
  split
  · rename_i zero
    exact ⟨a, rfl, ha.null zero⟩
  · rename_i nonzero
    have second : Null .scalar b := null.resolve_left fun first => nonzero first.isZero
    rw [if_pos second.isZero, ite_self]
    exact ⟨b, rfl, second⟩

theorem nullifies_matrixProduct (h : s.isMatrix = true)
    (made : List.Forall₂ OfShape [s, s] operands) (zero : ∃ n ∈ operands, n.isZero = true)
    {optimize : List (Node K) → Rule K (Option (Node K))}
    (hook : ((Operator.matrixProduct s h).definition : Definition K).hooks.optimize =
      some optimize) :
    Nullifies s (optimize operands) := by
  have dims := Shape.hasDims_of_isMatrix h
  cases hook
  refine nullifies_product made zero (fun w hw => Literal.zero_product hw dims dims)
    (fun v hv => Literal.product_zero hv dims dims) fun a b ha hb null => ?_
  change ∃ m ∈ (if a.isZero || b.isOne then some a else if b.isZero || a.isOne then some b
      else none), Null s m
  rcases null with first | second
  · rw [first.isZero]
    exact ⟨a, rfl, first⟩
  · -- a right factor that is zero is not one
    rw [second.isOne_eq_false, second.isZero, Bool.or_false]
    split
    · rename_i zero
      exact ⟨a, rfl, ha.null zero⟩
    · exact ⟨b, rfl, second⟩

theorem nullifies_columnProduct (h : IsColumn r s) (made : List.Forall₂ OfShape [r, s] operands)
    (zero : ∃ n ∈ operands, n.isZero = true)
    {optimize : List (Node K) → Rule K (Option (Node K))}
    (hook : ((Operator.columnProduct r s h).definition : Definition K).hooks.optimize =
      some optimize) :
    Nullifies s (optimize operands) := by
  rcases h.dims with ⟨_, dims, column⟩
  cases hook
  refine nullifies_product made zero (fun w hw => Literal.zero_product hw dims column)
    (fun v hv => Literal.product_zero hv dims column) fun a b _ _ null => ?_
  change Nullifies s (if a.isZero then some <$> Recipe.constant (.zero s)
    else return if b.isZero || a.isOne then some b else none)
  split
  · exact nullifies_constant
  · rename_i nonzero
    have second : Null s b := null.resolve_left fun first => nonzero first.isZero
    change ∃ m ∈ (if b.isZero || a.isOne then some b else none), Null s m
    rw [second.isZero]
    exact ⟨b, rfl, second⟩

theorem nullifies_division (made : List.Forall₂ OfShape [.scalar, .scalar] operands)
    (zero : ∃ n ∈ operands.head?, n.isZero = true)
    {optimize : List (Node K) → Rule K (Option (Node K))}
    (hook : (Operator.division.definition : Definition K).hooks.optimize = some optimize) :
    Nullifies .scalar (optimize operands) := by
  cases hook
  rcases made with _ | ⟨ha, _ | ⟨hb, _ | _⟩⟩
  rename_i a b
  have first : Null .scalar a := ha.null (by simpa using zero)
  refine nullifies_foldingTwo ha hb (fun v w _ hw zero _ => ?_) ?_
  · rw [zero first]
    exact Literal.zero_div hw
  · change ∃ m ∈ (if a.isZero || b.isOne then some a else none), Null .scalar m
    rw [first.isZero]
    exact ⟨a, rfl, first⟩

/-! ## Construction -/

/-- Whatever an application of zeros consists of, its operator has a rule for it. -/
theorem nullifies_optimize (made : List.Forall₂ OfShape o.signature.operands operands)
    (annihilates : o.Annihilates operands) : ∃ optimize,
      (o.definition : Definition K).hooks.optimize = some optimize ∧
        Nullifies o.signature.result (optimize operands) := by
  cases o with
  | addition s h =>
      exact ⟨_, rfl, nullifies_foldingZeros 2 made annihilates
        (Literal.add_zero (Literal.hasShape_zero s))⟩
  | subtraction s h =>
      exact ⟨_, rfl, nullifies_foldingZeros 2 made annihilates
        (Literal.sub_zero (Literal.hasShape_zero s))⟩
  | negation => exact ⟨_, rfl, nullifies_foldingZeros 1 made annihilates Literal.neg_zero⟩
  | transposition s h =>
      exact ⟨_, rfl, nullifies_foldingZeros 1 made annihilates Literal.transpose_zero⟩
  | selector s h i lt =>
      exact ⟨_, rfl, nullifies_foldingZeros 1 made annihilates
        (congrArg Literal.scalar Literal.component_zero)⟩
  | constructor s h =>
      exact ⟨_, rfl, nullifies_foldingZeros s.size made annihilates
        (congrArg (Literal.ofFn s) (funext fun i => scalarAt_zeros s.size i))⟩
  | multiplication => exact ⟨_, rfl, nullifies_multiplication made annihilates rfl⟩
  | division => exact ⟨_, rfl, nullifies_division made annihilates rfl⟩
  | scaling s h =>
      refine ⟨_, rfl, nullifies_product made annihilates (fun w hw => Literal.zero_scale hw)
        (fun v _ => Literal.scale_zero _) fun a b _ _ null => nullifies_eitherZero null⟩
  | innerProduct s h =>
      refine ⟨_, rfl, nullifies_product made annihilates (fun w hw => ?_)
        (fun v hv => ?_) fun a b _ _ null => nullifies_eitherZero null⟩
      · exact congrArg Literal.scalar ((Literal.zero_dot hw).trans RingArithmetic.zero_eq.symm)
      · exact congrArg Literal.scalar ((Literal.dot_zero hv).trans RingArithmetic.zero_eq.symm)
  | outerProduct m v h =>
      exact ⟨_, rfl, nullifies_product made annihilates (fun w _ => Literal.zero_outer w)
        (fun v _ => Literal.outer_zero v) fun a b _ _ null => nullifies_eitherZero null⟩
  | matrixProduct s h => exact ⟨_, rfl, nullifies_matrixProduct h made annihilates rfl⟩
  | columnProduct m v h => exact ⟨_, rfl, nullifies_columnProduct h made annihilates rfl⟩
  | _ => exact annihilates.elim

/-- Applying an operator to operands that make it zero comes to the zero constant. -/
theorem make_null (made : List.Forall₂ OfShape o.signature.operands operands)
    (annihilates : o.Annihilates operands) :
    Triple (fun _ => True)
      ((Registry.standard : Registry K).make (.apply o.signature.name operands))
      (fun n _ => Null o.signature.result n) never := by
  rcases nullifies_optimize made annihilates with ⟨optimize, hook, nullifies⟩
  have makes (k : Construction K) (p : Node K → Prop) (granted : constants.grant k p) :
      Triple (fun _ => True) ((Registry.standard : Registry K).makeWithin (nestingLimit - 1) k)
        (fun n _ => p n) never := by
    cases k with
    | constant v => exact newConstant_triple granted
    | leaf | apply | applyFor => exact granted.elim
  rw [Registry.make_eq]
  refine makeWith_apply (shapes_ofShape made) (buildWith_of_simplify? (shapes_ofShape made) ?_)
  rw [Registry.simplify?, hook]
  -- the hook answers, so nothing is applied
  refine (follow_triple makes nullifies).relax ?_
  rintro n? w ⟨m, rfl, null⟩
  refine ⟨fun none => absurd none (Option.some_ne_none m), fun n hn => ?_⟩
  obtain rfl := Option.some.inj hn
  exact ⟨null.ofShape.shape, null⟩

end

end Standard

end SymbolicLinalg
