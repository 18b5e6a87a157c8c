import SymbolicLinalg.Proofs.Construction
import SymbolicLinalg.Proofs.Transform

/-!
# Simplification — what the `optimize` hooks answer

Whatever rule of an operator fires, its answer stands for the value of the operator.  Folding needs
no law of arithmetic, and neither does taking a component out of a constructor; the rules about zeros
and ones hold over a field.
-/

namespace SymbolicLinalg

namespace Standard

variable {K : Type} [Arithmetic K] [Numeral K] {Φ : Prop} {ρ : Assignment K}
  {allowed : Permission K} {o : Operator} {operands : List (Node K)} {values : List (Literal K)}
  {a b : Node K} {A B : Literal K} {s : Shape}

/-! ## Constants -/

namespace Denotes

theorem of_literal (h : Denotes Φ ρ a s A) {v : Literal K} (literal : a.literal? = some v) :
    v.HasShape s ∧ (Φ → A = v) := by
  cases a with
  | constant id w =>
      obtain rfl : w = v := by simpa [Node.literal?] using literal
      cases h.typed with
      | constant _ complete => exact ⟨⟨h.shape, complete⟩, fun hΦ => (h.value hΦ).symm⟩
  | leaf | application => simp [Node.literal?] at literal

theorem eq_zero [Field K] [FieldArithmetic K] (h : Denotes Φ ρ a s A) (zero : a.isZero = true)
    (hΦ : Φ) : A = .zero s := by
  cases a with
  | constant id v =>
      rcases h.of_literal rfl with ⟨shape, same⟩
      rw [same hΦ]
      refine shape.ext (Literal.hasShape_zero s) ?_
      intro i hi
      have bound : i < v.components.length := shape.length ▸ hi
      rw [Literal.component_eq_getElem bound, Literal.component_zero, RingArithmetic.zero_eq]
      have all : ∀ x ∈ v.components, x = 0 := by
        simpa [Node.isZero, Literal.isZero] using zero
      exact all _ (List.getElem_mem bound)
  | leaf | application => simp [Node.isZero] at zero

omit [Numeral K] in
theorem sameComponents_iff [Field K] [FieldArithmetic K] (xs ys : List K) :
    Literal.sameComponents xs ys = true ↔ xs = ys := by
  induction xs generalizing ys with
  | nil => cases ys <;> simp [Literal.sameComponents]
  | cons x xs ih => cases ys <;> simp [Literal.sameComponents, ih]

theorem eq_one [Field K] [FieldArithmetic K] (h : Denotes Φ ρ a s A) (one : a.isOne = true)
    (hΦ : Φ) : A = .one s := by
  cases a with
  | constant id v =>
      rcases h.of_literal rfl with ⟨shape, same⟩
      rw [same hΦ, ← shape.shape]
      have equal : v.shape = (Literal.one v.shape : Literal K).shape ∧
          v.components = (Literal.one v.shape : Literal K).components := by
        simpa [Node.isOne, Literal.isOne, Literal.isEqual, sameComponents_iff] using one
      exact congrArg (Literal.mk _) equal.2
  | leaf | application => simp [Node.isOne] at one

end Denotes

theorem DenoteAll.of_literals {ns : List (Node K)} {ss : List Shape} {vs ws : List (Literal K)}
    (h : DenoteAll Φ ρ ns ss vs) (literals : Node.literals? ns = some ws) :
    List.Forall₂ Literal.HasShape ws ss ∧ (Φ → vs = ws) := by
  have each := Node.forall₂_of_literals? literals
  clear literals
  induction h generalizing ws with
  | nil =>
      cases each
      exact ⟨.nil, fun _ => rfl⟩
  | cons head _ ih =>
      cases each with
      | cons literal others =>
          rcases head.of_literal literal with ⟨shape, same⟩
          rcases ih others with ⟨shapes, sames⟩
          exact ⟨.cons shape shapes, fun hΦ => by rw [same hΦ, sames hΦ]⟩

/-! ## Answers -/

theorem Applied.of_ne (h : Denotes Φ ρ a o.signature.result (o.value values)) (ne : o ≠ .sine) :
    Applied Φ ρ o values a :=
  ⟨h, fun same => absurd same ne⟩

/-- Folding an operator over constants gives its value. -/
theorem simplifies_foldingFirst {fold : List (Literal K) → Literal K}
    {rule : List (Node K) → Rule K (Option (Node K))}
    (optimize : (o.definition : Definition K).hooks.optimize = some (foldingFirst fold rule))
    (folds : (o.definition : Definition K).hooks.fold = some fold)
    (denotes : DenoteAll Φ ρ operands o.signature.operands values)
    (h : (rule operands).Ensures ⟨building allowed Φ ρ, .none Empty Empty⟩
      fun _ n? => ∀ n ∈ n?, Applied Φ ρ o values n) :
    Simplifies allowed Φ ρ o operands values := by
  intro hook same
  obtain rfl : hook = foldingFirst fold rule := Option.some.inj (same.symm.trans optimize)
  unfold foldingFirst
  cases literals : Node.literals? operands with
  -- an operand is no constant, and the rules of the operator come next
  | none => exact h
  -- all operands are constants
  | some constants =>
      rcases denotes.of_literals literals with ⟨shapes, sames⟩
      have shape := o.hasShape_value shapes
      rw [Operator.value_eq folds] at shape
      refine ⟨shape.complete, fun id n hn => ?_⟩
      obtain rfl : Node.constant id (fold constants) = n := Option.some.inj hn
      refine ⟨(Denotes.constant id shape).of_eq fun hΦ => ?_, fun _ => rfl⟩
      rw [sames hΦ, Operator.value_eq folds]

theorem simplifies_foldingOnly {fold : List (Literal K) → Literal K}
    (optimize : (o.definition : Definition K).hooks.optimize = some (foldingOnly fold))
    (folds : (o.definition : Definition K).hooks.fold = some fold)
    (denotes : DenoteAll Φ ρ operands o.signature.operands values) :
    Simplifies allowed Φ ρ o operands values :=
  simplifies_foldingFirst optimize folds denotes fun n hn => absurd hn (Option.not_mem_none n)

theorem answers_none : ∀ n ∈ (none : Option (Node K)), Applied Φ ρ o values n :=
  fun n hn => absurd hn (Option.not_mem_none n)

/-- An answer that is a node of the right value. -/
theorem answers_some (h : Denotes Φ ρ a o.signature.result A) (same : Φ → A = o.value values)
    (ne : o ≠ .sine) : ∀ n ∈ some a, Applied Φ ρ o values n := by
  intro n hn
  obtain rfl : a = n := Option.some.inj hn
  exact .of_ne (h.of_eq same) ne

/-- A constant that is made as the answer. -/
theorem ensures_someConstant {v : Literal K} (hv : v.HasShape o.signature.result)
    (same : Φ → v = o.value values) (ne : o ≠ .sine) :
    (some <$> Recipe.constant v : Rule K (Option (Node K))).Ensures
      ⟨building allowed Φ ρ, .none Empty Empty⟩ fun _ n? => ∀ n ∈ n?, Applied Φ ρ o values n :=
  Recipe.Ensures.map (ensures_constant hv fun _ hn => answers_some hn same ne)

/-! ## Operators that are simplified in any arithmetic -/

theorem simplifies_cosine (denotes : DenoteAll Φ ρ operands [.scalar] values) :
    Simplifies allowed Φ ρ .cosine operands values :=
  simplifies_foldingOnly rfl rfl denotes

theorem simplifies_sine (denotes : DenoteAll Φ ρ operands [.scalar] values) :
    Simplifies allowed Φ ρ .sine operands values :=
  simplifies_foldingOnly rfl rfl denotes

theorem simplifies_constructor (h : s.isScalar = false)
    (denotes : DenoteAll Φ ρ operands (Operator.constructor s h).signature.operands values) :
    Simplifies allowed Φ ρ (.constructor s h) operands values :=
  simplifies_foldingOnly rfl rfl denotes

/-- A negation that is not undone. -/
theorem simplifies_negation_of_positive (denotes : Denotes Φ ρ a .scalar A)
    (positive : a.applies "-" = false) : Simplifies allowed Φ ρ .negation [a] [A] := by
  refine simplifies_foldingFirst rfl rfl (.one denotes) ?_
  change ∀ n ∈ (if a.applies "-" && a.operands.length == 1 then a.operands.head? else none),
    Applied Φ ρ .negation [A] n
  simp [positive]

/-! ## Operands that are applications -/

theorem signature_of_shapeName {s : Shape} (h : s.isScalar = false) :
    ∀ t ∈ signatures, t.name = s.name → t = (Operator.constructor s h).signature := by
  revert h
  cases s <;> decide +kernel

theorem signature_of_trans : ∀ t ∈ signatures, t.name = "trans" →
    t.result.isMatrix = true ∧ t = ⟨t.result, "trans", [t.result]⟩ := by
  decide +kernel

theorem signature_of_minus : ∀ t ∈ signatures, t.name = "-" → t.operands.length = 1 →
    t = Operator.negation.signature := by
  decide +kernel

/-- What is known of a node that applies an operator of a name. -/
theorem Denotes.of_applies (h : Denotes Φ ρ a s A) {name : String}
    (applies : a.applies name = true) :
    ∃ (id : NodeId) (p : Operator) (ns : List (Node K)),
      a = .application id p.signature ns ∧ p.signature.name = name ∧ p.signature.result = s ∧
      DenoteAll Φ ρ ns p.signature.operands (ns.map (Node.value Standard.meaning ρ)) ∧
      (Φ → A = p.value (ns.map (Node.value Standard.meaning ρ))) := by
  cases a with
  | constant | leaf => simp [Node.applies] at applies
  | application id t ns =>
      rcases h.typed.operator with ⟨p, rfl, shapes, typed⟩
      -- the operands are typed and fit because the application is and does
      have fits : Φ → ∀ n ∈ ns, ρ.Fits n := fun hΦ => Assignment.fits_application.1 (h.fits hΦ)
      have denotes := DenoteAll.of_typed typed fits
      rw [shapes] at denotes
      refine ⟨id, p, ns, rfl, by simpa [Node.applies] using applies, h.shape, denotes, fun hΦ => ?_⟩
      rw [← h.value hΦ, Node.value_application]
      rfl

theorem simplifies_selector (h : s.isScalar = false) {i : Nat} (lt : i < s.size)
    (denotes : DenoteAll Φ ρ operands [s] values) :
    Simplifies allowed Φ ρ (.selector s h i lt) operands values := by
  refine simplifies_foldingFirst rfl rfl denotes ?_
  rcases denotes with _ | ⟨ha, _ | _⟩
  rename_i a A
  change ∀ n ∈ (if a.applies s.name && a.operands.length == s.size then a.operands[i]? else none),
    Applied Φ ρ (.selector s h i lt) [A] n
  intro n hn
  split at hn
  · rename_i constructed
    rw [Bool.and_eq_true] at constructed
    rcases ha.of_applies constructed.1 with ⟨id, p, ns, rfl, name, result, parts, value⟩
    have same := signature_of_shapeName h _ (signature_mem_signatures p) name
    -- the component of a constructor is the operand at its place
    rw [same] at parts
    have place : ns[i]? = some n := hn
    -- the operands of a constructor are scalars
    have scalar : n.shape = .scalar := by
      have shape := congrArg (·[i]?) parts.shapes
      simp only [List.getElem?_map, place, Option.map_some] at shape
      have : (List.replicate s.size Shape.scalar)[i]? = some .scalar := by
        rw [List.getElem?_replicate, if_pos lt]
      exact Option.some.inj (shape.trans this)
    have mem : n ∈ ns := List.mem_of_getElem? place
    have denoted : Denotes Φ ρ n .scalar (n.value Standard.meaning ρ) :=
      ⟨parts.typed n mem, scalar, fun hΦ => parts.fits hΦ n mem, fun _ => rfl⟩
    refine .of_ne (denoted.of_eq fun hΦ => ?_) (by simp)
    have component : A.component i = (n.value Standard.meaning ρ).component 0 := by
      rw [value hΦ, Operator.value, same]
      change ((Operator.constructor s h).value _).component i = _
      rw [Operator.value_constructor, Literal.component_ofFn lt, scalarAt]
      simp [List.getD_eq_getElem?_getD, place]
    rw [Operator.value_selector, component]
    exact (denoted.hasShape hΦ).eq_scalar
  · exact absurd hn (Option.not_mem_none n)

theorem simplifies_transposition (h : s.isMatrix = true)
    (denotes : DenoteAll Φ ρ operands [s] values) :
    Simplifies allowed Φ ρ (.transposition s h) operands values := by
  refine simplifies_foldingFirst rfl rfl denotes ?_
  rcases denotes with _ | ⟨ha, _ | _⟩
  rename_i a A
  change Recipe.Ensures _ (if a.applies "trans" then some <$> firstOperand "trans" a else .done none) _
  split
  · rename_i twice
    rcases ha.of_applies twice with ⟨id, p, ns, rfl, name, result, parts, value⟩
    -- the operand is a transposition, the only operator of its name and result
    rcases signature_of_trans _ (signature_mem_signatures p) name with ⟨_, same⟩
    rw [result] at same
    rw [same] at parts
    rcases parts with _ | ⟨hb, _ | _⟩
    rename_i b
    refine answers_some hb (fun hΦ => ?_) (by simp)
    have transposed : A = (b.value Standard.meaning ρ).transpose := by
      rw [value hΦ, Operator.value, same]
      exact Operator.value_transposition _ s h
    rw [Operator.value_transposition, transposed,
      Literal.transpose_transpose (hb.hasShape hΦ) (Shape.hasDims_of_isMatrix h)]
  · exact answers_none

/-! ## Quotients -/

/-- The laws that the simplification of a quotient relies on are needed under the assumption only. -/
theorem simplifies_division (lawful : Φ → IsFieldArithmetic K)
    (denotes : DenoteAll Φ ρ operands [.scalar, .scalar] values) :
    Simplifies allowed Φ ρ .division operands values := by
  refine simplifies_foldingFirst rfl rfl denotes ?_
  rcases denotes with _ | ⟨ha, _ | ⟨hb, _ | _⟩⟩
  rename_i a A b B
  change ∀ n ∈ (if a.isZero || b.isOne then some a else none), Applied Φ ρ .division [A, B] n
  split
  · rename_i fires
    refine answers_some ha (fun hΦ => ?_) (by simp)
    rcases lawful hΦ with ⟨_, _⟩
    rw [Operator.value_division]
    -- `0 / b = 0` and `a / 1 = a`
    rcases Bool.or_eq_true _ _ ▸ fires with zero | one
    · rw [ha.eq_zero zero hΦ, Literal.zero_div (hb.hasShape hΦ)]
    · rw [hb.eq_one one hΦ, Literal.div_one rfl (ha.hasShape hΦ)]
  · exact answers_none

/-! ## Operators that are simplified over a field -/

section

variable [Field K] [FieldArithmetic K]

theorem simplifies_negation (denotes : DenoteAll Φ ρ operands [.scalar] values) :
    Simplifies allowed Φ ρ .negation operands values := by
  refine simplifies_foldingFirst rfl rfl denotes ?_
  rcases denotes with _ | ⟨ha, _ | _⟩
  rename_i a A
  change ∀ n ∈ (if a.applies "-" && a.operands.length == 1 then a.operands.head? else none),
    Applied Φ ρ .negation [A] n
  split
  · rename_i twice
    rw [Bool.and_eq_true] at twice
    rcases ha.of_applies twice.1 with ⟨id, p, ns, rfl, name, result, parts, value⟩
    -- a difference has the same name, but two operands
    have single : p.signature.operands.length = 1 := by
      rw [← parts.shapes, List.length_map]
      simpa using twice.2
    have same := signature_of_minus _ (signature_mem_signatures p) name single
    rw [same] at parts
    rcases parts with _ | ⟨hb, _ | _⟩
    rename_i b
    refine answers_some hb (fun hΦ => ?_) (by simp)
    -- the negative of the negative
    have negative : A = (b.value Standard.meaning ρ).map Arithmetic.neg := by
      rw [value hΦ, Operator.value, same]
      exact Operator.value_negation _
    rw [Operator.value_negation, negative, Literal.neg_neg]
  · exact answers_none

theorem simplifies_addition (h : s ≠ .genericScalar)
    (denotes : DenoteAll Φ ρ operands [s, s] values) :
    Simplifies allowed Φ ρ (.addition s h) operands values := by
  refine simplifies_foldingFirst rfl rfl denotes ?_
  rcases denotes with _ | ⟨ha, _ | ⟨hb, _ | _⟩⟩
  rename_i a A b B
  change ∀ n ∈ (if a.isZero then some b else if b.isZero then some a else none),
    Applied Φ ρ (.addition s h) [A, B] n
  split
  · -- `0 + b = b`
    rename_i zero
    refine answers_some hb (fun hΦ => ?_) (by simp)
    rw [Operator.value_addition, ha.eq_zero zero hΦ, Literal.zero_add (hb.hasShape hΦ)]
  · split
    · -- `a + 0 = a`
      rename_i zero
      refine answers_some ha (fun hΦ => ?_) (by simp)
      rw [Operator.value_addition, hb.eq_zero zero hΦ, Literal.add_zero (ha.hasShape hΦ)]
    · exact answers_none

theorem simplifies_multiplication (denotes : DenoteAll Φ ρ operands [.scalar, .scalar] values) :
    Simplifies allowed Φ ρ .multiplication operands values := by
  refine simplifies_foldingFirst rfl rfl denotes ?_
  rcases denotes with _ | ⟨ha, _ | ⟨hb, _ | _⟩⟩
  rename_i a A b B
  change ∀ n ∈ (if a.isZero then some a else if a.isOne then some b
      else if b.isZero then some b else if b.isOne then some a else none),
    Applied Φ ρ .multiplication [A, B] n
  split
  · -- `0 * b = 0`
    rename_i zero
    refine answers_some ha (fun hΦ => ?_) (by simp)
    rw [Operator.value_multiplication, ha.eq_zero zero hΦ, Literal.zero_mul (hb.hasShape hΦ)]
  split
  · -- `1 * b = b`
    rename_i one
    refine answers_some hb (fun hΦ => ?_) (by simp)
    rw [Operator.value_multiplication, ha.eq_one one hΦ, Literal.one_mul rfl (hb.hasShape hΦ)]
  split
  · -- `a * 0 = 0`
    rename_i zero
    refine answers_some hb (fun hΦ => ?_) (by simp)
    rw [Operator.value_multiplication, hb.eq_zero zero hΦ, Literal.mul_zero (ha.hasShape hΦ)]
  split
  · -- `a * 1 = a`
    rename_i one
    refine answers_some ha (fun hΦ => ?_) (by simp)
    rw [Operator.value_multiplication, hb.eq_one one hΦ, Literal.mul_one rfl (ha.hasShape hΦ)]
  · exact answers_none

theorem simplifies_scaling (h : s.isScalar = false)
    (denotes : DenoteAll Φ ρ operands [.scalar, s] values) :
    Simplifies allowed Φ ρ (.scaling s h) operands values := by
  refine simplifies_foldingFirst rfl rfl denotes ?_
  rcases denotes with _ | ⟨ha, _ | ⟨hb, _ | _⟩⟩
  rename_i a A b B
  change (if a.isZero || b.isZero then some <$> Recipe.constant (.zero s)
      else if a.isOne then return some b else return none : Rule K (Option (Node K))).Ensures
    _ fun _ n? => ∀ n ∈ n?, Applied Φ ρ (.scaling s h) [A, B] n
  split
  · -- `0 * b = 0` and `a * 0 = 0`
    rename_i fires
    refine ensures_someConstant (Literal.hasShape_zero s) (fun hΦ => ?_) (by simp)
    rw [Operator.value_scaling]
    rcases Bool.or_eq_true _ _ ▸ fires with zero | zero
    · rw [ha.eq_zero zero hΦ, Literal.component_zero, Literal.zero_scale (hb.hasShape hΦ)]
    · rw [hb.eq_zero zero hΦ, Literal.scale_zero]
  split
  · -- `1 * b = b`
    rename_i one
    refine answers_some hb (fun hΦ => ?_) (by simp)
    have factor : (Literal.one .scalar : Literal K).component 0 = Arithmetic.one := rfl
    rw [Operator.value_scaling, ha.eq_one one hΦ, factor, Literal.one_scale (hb.hasShape hΦ)]
  · exact answers_none

theorem simplifies_innerProduct (h : s.isScalar = false)
    (denotes : DenoteAll Φ ρ operands [s, s] values) :
    Simplifies allowed Φ ρ (.innerProduct s h) operands values := by
  refine simplifies_foldingFirst rfl rfl denotes ?_
  rcases denotes with _ | ⟨ha, _ | ⟨hb, _ | _⟩⟩
  rename_i a A b B
  change (if a.isZero || b.isZero then some <$> Recipe.scalar Arithmetic.zero
      else return none : Rule K (Option (Node K))).Ensures
    _ fun _ n? => ∀ n ∈ n?, Applied Φ ρ (.innerProduct s h) [A, B] n
  split
  · -- the inner product with zero is zero
    rename_i fires
    refine ensures_someConstant (Literal.hasShape_scalar _) (fun hΦ => ?_) (by simp)
    rw [Operator.value_innerProduct, RingArithmetic.zero_eq]
    rcases Bool.or_eq_true _ _ ▸ fires with zero | zero
    · rw [ha.eq_zero zero hΦ, Literal.zero_dot (hb.hasShape hΦ)]
    · rw [hb.eq_zero zero hΦ, Literal.dot_zero (ha.hasShape hΦ)]
  · exact answers_none

/-! ### Matrices -/

theorem simplifies_matrixProduct (h : s.isMatrix = true)
    (denotes : DenoteAll Φ ρ operands [s, s] values) :
    Simplifies allowed Φ ρ (.matrixProduct s h) operands values := by
  refine simplifies_foldingFirst rfl rfl denotes ?_
  rcases denotes with _ | ⟨ha, _ | ⟨hb, _ | _⟩⟩
  rename_i a A b B
  have dims := Shape.hasDims_of_isMatrix h
  change ∀ n ∈ (if a.isZero || b.isOne then some a else if b.isZero || a.isOne then some b
      else none),
    Applied Φ ρ (.matrixProduct s h) [A, B] n
  split
  · -- `0 * b = 0` and `a * 1 = a`
    rename_i fires
    refine answers_some ha (fun hΦ => ?_) (by simp)
    rw [Operator.value_matrixProduct]
    rcases Bool.or_eq_true _ _ ▸ fires with zero | one
    · rw [ha.eq_zero zero hΦ, Literal.zero_product (hb.hasShape hΦ) dims dims]
    · rw [hb.eq_one one hΦ, Literal.product_one (ha.hasShape hΦ) h dims]
  split
  · -- `a * 0 = 0` and `1 * b = b`
    rename_i fires
    refine answers_some hb (fun hΦ => ?_) (by simp)
    rw [Operator.value_matrixProduct]
    rcases Bool.or_eq_true _ _ ▸ fires with zero | one
    · rw [hb.eq_zero zero hΦ, Literal.product_zero (ha.hasShape hΦ) dims dims]
    · rw [ha.eq_one one hΦ, Literal.one_product (hb.hasShape hΦ) h dims dims]
  · exact answers_none

theorem simplifies_columnProduct {m v : Shape} (h : IsColumn m v)
    (denotes : DenoteAll Φ ρ operands [m, v] values) :
    Simplifies allowed Φ ρ (.columnProduct m v h) operands values := by
  refine simplifies_foldingFirst rfl rfl denotes ?_
  rcases denotes with _ | ⟨ha, _ | ⟨hb, _ | _⟩⟩
  rename_i a A b B
  rcases h.dims with ⟨matrix, dims, column⟩
  change (if a.isZero then some <$> Recipe.constant (.zero v)
      else return if b.isZero || a.isOne then some b else none : Rule K (Option (Node K))).Ensures
    _ fun _ n? => ∀ n ∈ n?, Applied Φ ρ (.columnProduct m v h) [A, B] n
  split
  · -- `0 * b = 0`
    rename_i zero
    refine ensures_someConstant (Literal.hasShape_zero v) (fun hΦ => ?_) (by simp)
    rw [Operator.value_columnProduct, ha.eq_zero zero hΦ,
      Literal.zero_product (hb.hasShape hΦ) dims column]
  change ∀ n ∈ (if b.isZero || a.isOne then some b else none),
    Applied Φ ρ (.columnProduct m v h) [A, B] n
  split
  · -- `a * 0 = 0` and `1 * b = b`
    rename_i fires
    refine answers_some hb (fun hΦ => ?_) (by simp)
    rw [Operator.value_columnProduct]
    rcases Bool.or_eq_true _ _ ▸ fires with zero | one
    · rw [hb.eq_zero zero hΦ, Literal.product_zero (ha.hasShape hΦ) dims column]
    · rw [ha.eq_one one hΦ, Literal.one_product (hb.hasShape hΦ) matrix dims column]
  · exact answers_none

theorem simplifies_outerProduct {m v : Shape} (h : IsColumn m v)
    (denotes : DenoteAll Φ ρ operands [v, v] values) :
    Simplifies allowed Φ ρ (.outerProduct m v h) operands values := by
  refine simplifies_foldingFirst rfl rfl denotes ?_
  rcases denotes with _ | ⟨ha, _ | ⟨hb, _ | _⟩⟩
  rename_i a A b B
  change (if a.isZero || b.isZero then some <$> Recipe.constant (.zero m)
      else return none : Rule K (Option (Node K))).Ensures
    _ fun _ n? => ∀ n ∈ n?, Applied Φ ρ (.outerProduct m v h) [A, B] n
  split
  · -- an outer product with zero is zero
    rename_i fires
    refine ensures_someConstant (Literal.hasShape_zero m) (fun hΦ => ?_) (by simp)
    rw [Operator.value_outerProduct]
    rcases Bool.or_eq_true _ _ ▸ fires with zero | zero
    · rw [ha.eq_zero zero hΦ, Literal.zero_outer]
    · rw [hb.eq_zero zero hΦ, Literal.outer_zero]
  · exact answers_none

/-! ### Transforms -/

theorem simplifies_axisRotation [AngleArithmetic K] {id : NodeId} {r : AxisRotation}
    (h : axisRotations[id]? = some r) (denotes : DenoteAll Φ ρ operands [.scalar] values) :
    Simplifies allowed Φ ρ (.axisRotation id r h) operands values := by
  rcases denotes with _ | ⟨ha, _ | _⟩
  rename_i a A
  intro optimize same
  cases same
  change (if a.isZero then some <$> Recipe.constant (.one r.shape)
      else return none : Rule K (Option (Node K))).Ensures
    _ fun _ n? => ∀ n ∈ n?, Applied Φ ρ (.axisRotation id r h) [A] n
  split
  · -- the rotation by no angle
    rename_i zero
    refine ensures_someConstant (Literal.hasShape_one r.shape) (fun hΦ => ?_) (by simp)
    rw [Operator.value_axisRotation, ha.eq_zero zero hΦ, Literal.component_zero,
      AxisRotation.value_zero (List.mem_of_getElem? h)]
  · exact answers_none

omit [Field K] [FieldArithmetic K] in
/-- What is known of each of three scalar operands is known of the three places. -/
theorem scalarAt_of_denotes (h : DenoteAll Φ ρ operands [.scalar, .scalar, .scalar] values)
    {x : K} (each : ∀ n ∈ operands, ∀ A, Denotes Φ ρ n .scalar A → A.component 0 = x) :
    ∀ k < 3, scalarAt values k = x := by
  rcases h with _ | ⟨ha, _ | ⟨hb, _ | ⟨hc, _ | _⟩⟩⟩
  intro k hk
  interval_cases k
  · exact each _ (by simp) _ ha
  · exact each _ (by simp) _ hb
  · exact each _ (by simp) _ hc

theorem simplifies_shift
    (denotes : DenoteAll Φ ρ operands [.scalar, .scalar, .scalar] values) :
    Simplifies allowed Φ ρ .shift operands values := by
  intro optimize same
  cases same
  change (if operands.all Node.isZero then some <$> Recipe.constant (.one .mat44)
      else return none : Rule K (Option (Node K))).Ensures
    _ fun _ n? => ∀ n ∈ n?, Applied Φ ρ .shift values n
  split
  · -- the shift by nothing
    rename_i zeros
    refine ensures_someConstant (Literal.hasShape_one .mat44) (fun hΦ => ?_) (by simp)
    have places : ∀ k < 3, scalarAt values k = 0 := by
      refine scalarAt_of_denotes denotes ?_
      intro n hn A hA
      rw [hA.eq_zero (List.all_eq_true.1 zeros n hn) hΦ, Literal.component_zero,
        RingArithmetic.zero_eq]
    rw [Operator.value_shift, Operator.filled_shift_zero places]
  · exact answers_none

theorem simplifies_axisScaling
    (denotes : DenoteAll Φ ρ operands [.scalar, .scalar, .scalar] values) :
    Simplifies allowed Φ ρ .axisScaling operands values := by
  intro optimize same
  cases same
  change (if operands.all Node.isZero then some <$> Recipe.constant (.oneHot .mat44 15)
      else if operands.all Node.isOne then some <$> Recipe.constant (.one .mat44)
      else return none : Rule K (Option (Node K))).Ensures
    _ fun _ n? => ∀ n ∈ n?, Applied Φ ρ .axisScaling values n
  split
  · -- scaling by zero leaves the last diagonal component
    rename_i zeros
    refine ensures_someConstant (Literal.hasShape_oneHot .mat44 15) (fun hΦ => ?_) (by simp)
    have places : ∀ k < 3, scalarAt values k = 0 := by
      refine scalarAt_of_denotes denotes ?_
      intro n hn A hA
      rw [hA.eq_zero (List.all_eq_true.1 zeros n hn) hΦ, Literal.component_zero,
        RingArithmetic.zero_eq]
    rw [Operator.value_axisScaling, Operator.filled_scaling_zero places]
  split
  · -- scaling by one
    rename_i ones
    refine ensures_someConstant (Literal.hasShape_one .mat44) (fun hΦ => ?_) (by simp)
    have places : ∀ k < 3, scalarAt values k = 1 := by
      refine scalarAt_of_denotes denotes ?_
      intro n hn A hA
      rw [hA.eq_one (List.all_eq_true.1 ones n hn) hΦ]
      exact Literal.component_one rfl (by decide)
    rw [Operator.value_axisScaling, Operator.filled_scaling_one places]
  · exact answers_none

theorem simplifies_axisAngleRotation [AngleArithmetic K]
    (denotes : DenoteAll Φ ρ operands [.vec3, .scalar] values) :
    Simplifies allowed Φ ρ .axisAngleRotation operands values := by
  rcases denotes with _ | ⟨ha, _ | ⟨hb, _ | _⟩⟩
  rename_i a A b B
  intro optimize same
  cases same
  change (if b.isZero then some <$> Recipe.constant (.one .mat44)
      else return none : Rule K (Option (Node K))).Ensures
    _ fun _ n? => ∀ n ∈ n?, Applied Φ ρ .axisAngleRotation [A, B] n
  split
  · -- the rotation by no angle, whatever the axis is
    rename_i zero
    refine ensures_someConstant (Literal.hasShape_one .mat44) (fun hΦ => ?_) (by simp)
    rw [Operator.value_axisAngleRotation, hb.eq_zero zero hΦ, Literal.component_zero,
      rodrigues_zero]
  · exact answers_none

/-! ### Differences -/

/-- Every operator but the differences, whose simplification applies others. -/
def Permission.simple : Permission K :=
  fun o _ => ∀ s h, o ≠ .subtraction s h

theorem ensures_negated {κ σ : Type} {asks : Recipe.Terms κ σ} {post : List κ → Node K → Prop}
    (permits : ∀ o ns, (Permission.simple : Permission K) o ns → allowed o ns)
    (generic : s ≠ .genericScalar) (ha : Denotes Φ ρ a s A)
    (next : ∀ n, Denotes Φ ρ n s (A.map Arithmetic.neg) → post [] n) :
    (negated s a).Ensures ⟨building allowed Φ ρ, asks⟩ post := by
  rw [negated]
  split
  · rename_i scalar
    obtain rfl : s = .scalar := by
      cases s <;> simp_all [Shape.isScalar]
    have allowed := permits .negation [a] (by simp [Permission.simple])
    refine ensures_apply .negation (.one ha) allowed fun n hn => next n ?_
    rwa [Operator.value_negation] at hn
  · rename_i vector
    rw [Bool.not_eq_true] at vector
    refine Recipe.Ensures.bind (ensures_constant (Literal.hasShape_scalar _) fun factor hf => ?_)
    have allowed := permits (.scaling s vector) [factor, a] (by simp [Permission.simple])
    refine ensures_apply (.scaling s vector) (.two hf ha) allowed fun n hn => next n ?_
    rw [Operator.value_scaling, Literal.component_scalar] at hn
    exact hn.of_eq fun hΦ => Literal.scale_neg_one (ha.hasShape hΦ)

theorem simplifies_subtraction (h : s ≠ .genericScalar)
    (permits : ∀ o ns, (Permission.simple : Permission K) o ns → allowed o ns)
    (denotes : DenoteAll Φ ρ operands [s, s] values) :
    Simplifies allowed Φ ρ (.subtraction s h) operands values := by
  refine simplifies_foldingFirst rfl rfl denotes ?_
  rcases denotes with _ | ⟨ha, _ | ⟨hb, _ | _⟩⟩
  rename_i a A b B
  change (if b.isZero then return some a else if a.isZero then some <$> negated s b
      else return none : Rule K (Option (Node K))).Ensures
    _ fun _ n? => ∀ n ∈ n?, Applied Φ ρ (.subtraction s h) [A, B] n
  split
  · rename_i zero
    refine answers_some ha (fun hΦ => ?_) (by simp)
    rw [Operator.value_subtraction, hb.eq_zero zero hΦ, Literal.sub_zero (ha.hasShape hΦ)]
  split
  · rename_i zero
    refine Recipe.Ensures.map (ensures_negated permits h hb fun n hn => ?_)
    refine answers_some hn (fun hΦ => ?_) (by simp)
    rw [Operator.value_subtraction, ha.eq_zero zero hΦ, Literal.zero_sub (hb.hasShape hΦ)]
  · exact answers_none

/-! ## All operators -/

variable [AngleArithmetic K]

/-- Whatever rule fires, the answer stands for the value of the operator. -/
theorem simplifies (o : Operator)
    (permits : ∀ s h, o = .subtraction s h →
      ∀ p ns, (Permission.simple : Permission K) p ns → allowed p ns)
    (denotes : DenoteAll Φ ρ operands o.signature.operands values) :
    Simplifies allowed Φ ρ o operands values := by
  cases o with
  | addition s h => exact simplifies_addition h denotes
  | subtraction s h => exact simplifies_subtraction h (permits s h rfl) denotes
  | negation => exact simplifies_negation denotes
  | multiplication => exact simplifies_multiplication denotes
  | division => exact simplifies_division (fun _ => ⟨_, inferInstance⟩) denotes
  | cosine => exact simplifies_cosine denotes
  | sine => exact simplifies_sine denotes
  | scaling s h => exact simplifies_scaling h denotes
  | innerProduct s h => exact simplifies_innerProduct h denotes
  | constructor s h => exact simplifies_constructor h denotes
  | selector s h i lt => exact simplifies_selector h lt denotes
  | transposition s h => exact simplifies_transposition h denotes
  | matrixProduct s h => exact simplifies_matrixProduct h denotes
  | columnProduct m v h => exact simplifies_columnProduct h denotes
  | outerProduct m v h => exact simplifies_outerProduct h denotes
  | axisRotation id r h => exact simplifies_axisRotation h denotes
  | shift => exact simplifies_shift denotes
  | axisScaling => exact simplifies_axisScaling denotes
  | axisAngleRotation => exact simplifies_axisAngleRotation denotes
  | fromHomogeneous => exact nofun

theorem carries_simple (depth : Nat) :
    Carries .simple Φ ρ ((Registry.standard : Registry K).makeWithin (depth + 2)) := by
  refine carries_makeWith (carries_none depth) ?_
  intro o operands values denotes simple
  exact simplifies o (fun s h same => absurd same (simple s h)) denotes

theorem carries_all (depth : Nat) :
    Carries .all Φ ρ ((Registry.standard : Registry K).makeWithin (depth + 3)) := by
  refine carries_makeWith (carries_simple depth) ?_
  intro o operands values denotes _
  exact simplifies o (fun _ _ _ _ _ => id) denotes

/-- The registry makes whatever a recipe may take for granted. -/
theorem carries_make : Carries .all Φ ρ (Registry.standard : Registry K).make :=
  carries_all (nestingLimit - 3)

end

end Standard

end SymbolicLinalg
