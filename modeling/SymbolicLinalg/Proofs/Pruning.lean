import SymbolicLinalg.Proofs.Annihilation
import SymbolicLinalg.Proofs.Derivation

/-!
# Pruning — derivatives that vanish leave nothing behind

An expression that does not depend on a leaf has the derivative zero.  Over a field differentiation
finds this out by the form of the nodes alone: the hooks combine the derivatives of the operands by
sums and products, and construction recognises every zero on the way.

* `prunes`: a hook whose requests are answered with zero constants answers with one;
* `derivative_prunes`: the derivative by a leaf that is not reached is the zero constant itself.
-/

namespace SymbolicLinalg

namespace Standard

variable {K : Type} [Arithmetic K] [Numeral K] {o : Operator} {operands : List (Node K)}
  {a b n : Node K} {s t : Shape}

/-! ## Terms -/

/-- The terms on which applications are well typed, and are the zero constant where an operand makes
them zero. -/
def annihilating : Recipe.Terms (Construction K) (Node K) where
  grant k p :=
    match k with
    | .constant v => ∀ id, p (.constant id v)
    | .apply name operands =>
        ∃ o : Operator, o.signature.name = name ∧
          List.Forall₂ OfShape o.signature.operands operands ∧
          ∀ n, OfShape o.signature.result n →
            (o.Annihilates operands → Null o.signature.result n) → p n
    | .leaf _ _ | .applyFor _ _ _ => False
  mono {k p q} imp h := by
    cases k with
    | constant v => exact fun id => imp _ (h id)
    | apply name operands =>
        rcases h with ⟨o, rfl, made, next⟩
        exact ⟨o, rfl, made, fun n hn null => imp n (next n hn null)⟩
    | leaf | applyFor => exact h

/-- A request for the derivative of an operand is answered with the zero constant of its shape. -/
def vanishing (operands : List (Node K)) : Recipe.Terms (Node K) (Node K) where
  grant r p := r ∈ operands ∧ ∀ m, Null r.shape m → p m
  mono imp h := ⟨h.1, fun m hm => imp m (h.2 m hm)⟩

/-- The terms on which a derivative that vanishes is taken. -/
abbrev pruning (operands : List (Node K)) : Recipe.Contract K (Node K) (Node K) :=
  ⟨annihilating, vanishing operands⟩

/-- A recipe that comes to the zero constant of a shape if the derivatives of operands vanish. -/
abbrev Vanishes (operands : List (Node K)) (s : Shape)
    (recipe : Recipe K (Node K) (Node K) (Node K)) : Prop :=
  recipe.Ensures (pruning operands) fun _ m => Null s m

section

variable {next : Node K → Recipe K (Node K) (Node K) (Node K)} {more : List (Node K)}

theorem vanishes_derive (mem : a ∈ operands) (ha : OfShape s a)
    (rest : ∀ da, Null s da → Vanishes operands t (next da)) :
    Vanishes operands t (derive a >>= next) :=
  Recipe.Ensures.bind ⟨mem, fun m hm => rest m (ha.shape ▸ hm)⟩

theorem vanishes_made (o : Operator) (made : List.Forall₂ OfShape o.signature.operands more)
    (rest : ∀ n, OfShape o.signature.result n → Vanishes operands t (next n)) :
    Vanishes operands t (Recipe.apply o.signature.name more >>= next) :=
  Recipe.Ensures.bind ⟨o, rfl, made, fun n hn _ => rest n hn⟩

theorem vanishes_null (o : Operator) (made : List.Forall₂ OfShape o.signature.operands more)
    (annihilates : o.Annihilates more)
    (rest : ∀ n, Null o.signature.result n → Vanishes operands t (next n)) :
    Vanishes operands t (Recipe.apply o.signature.name more >>= next) :=
  Recipe.Ensures.bind ⟨o, rfl, made, fun n _ null => rest n (null annihilates)⟩

theorem vanishes_apply (o : Operator) (made : List.Forall₂ OfShape o.signature.operands more)
    (annihilates : o.Annihilates more) :
    Vanishes operands o.signature.result (Recipe.apply o.signature.name more) :=
  ⟨o, rfl, made, fun _ _ null => null annihilates⟩

end

/-! ## Hooks -/

omit [Arithmetic K] [Numeral K] in
theorem forall_of_replicate {R : Shape → Node K → Prop} (count : Nat)
    (h : List.Forall₂ R (List.replicate count s) operands) : ∀ n ∈ operands, R s n := by
  induction count generalizing operands with
  | zero =>
      cases h
      exact nofun
  | succ count ih =>
      cases h with
      | cons first rest => exact List.forall_mem_cons.2 ⟨first, ih rest⟩

theorem ofShape_two (ha : OfShape s a) (hb : OfShape t b) : List.Forall₂ OfShape [s, t] [a, b] :=
  .cons ha (.cons hb .nil)

/-- The hook answers with the zero constant if the derivatives of the operands are zero constants. -/
def Prunes (o : Operator) (operands : List (Node K)) : Prop :=
  ∀ deriv wrt, (o.definition : Definition K).hooks.deriv = some deriv →
    Vanishes operands o.signature.result (deriv wrt operands)

section

variable [Field K] [FieldArithmetic K]

/-- Operators of one operand that are applied to its derivative. -/
theorem prunes_linearOne
    (deriv : (o.definition : Definition K).hooks.deriv =
      some fun _ => onOne o.signature.name fun a => do
        let da ← derive a
        .apply o.signature.name [da])
    (shapes : o.signature.operands = [s])
    (zero : ∀ a : Node K, a.isZero = true → o.Annihilates [a])
    (made : List.Forall₂ OfShape o.signature.operands operands) : Prunes o operands := by
  rw [shapes] at made
  rcases made with _ | ⟨ha, _ | _⟩
  intro hook wrt same
  obtain rfl := Option.some.inj (same.symm.trans deriv)
  refine vanishes_derive (by simp) ha fun da hda => ?_
  exact vanishes_apply o (shapes ▸ .cons hda.ofShape .nil) (zero da hda.isZero)

/-- Operators of two operands that are applied to the derivatives of both. -/
theorem prunes_linearTwo
    (deriv : (o.definition : Definition K).hooks.deriv =
      some fun _ => onTwo o.signature.name fun a b => do
        let da ← derive a
        let db ← derive b
        .apply o.signature.name [da, db])
    (shapes : o.signature.operands = [s, t])
    (zeros : ∀ a b : Node K, a.isZero = true → b.isZero = true → o.Annihilates [a, b])
    (made : List.Forall₂ OfShape o.signature.operands operands) : Prunes o operands := by
  rw [shapes] at made
  rcases made with _ | ⟨ha, _ | ⟨hb, _ | _⟩⟩
  intro hook wrt same
  obtain rfl := Option.some.inj (same.symm.trans deriv)
  refine vanishes_derive (by simp) ha fun da hda => ?_
  refine vanishes_derive (by simp) hb fun db hdb => ?_
  refine vanishes_apply o ?_ (zeros da db hda.isZero hdb.isZero)
  rw [shapes]
  exact ofShape_two hda.ofShape hdb.ofShape

theorem vanishes_sum (known : s ≠ .genericScalar) (ha : Null s a) (hb : Null s b) :
    Vanishes operands s (Recipe.add a b) :=
  vanishes_apply (.addition s known) (ofShape_two ha.ofShape hb.ofShape)
    (by simp [Operator.Annihilates, ha.isZero, hb.isZero])

/-- An operator of two operands that is zero if one of them is. -/
structure IsProduct (o : Operator) (s t : Shape) : Prop where
  shapes : o.signature.operands = [s, t]
  known : o.signature.result ≠ .genericScalar
  zero {K : Type} [Arithmetic K] {operands : List (Node K)} :
    (∃ n ∈ operands, n.isZero = true) → o.Annihilates operands

omit [Field K] [FieldArithmetic K] in
theorem vanishes_product {next : Node K → Recipe K (Node K) (Node K) (Node K)} {r : Shape}
    (product : IsProduct o s t) (ha : OfShape s a) (hb : OfShape t b)
    (zero : a.isZero = true ∨ b.isZero = true)
    (rest : ∀ n, Null o.signature.result n → Vanishes operands r (next n)) :
    Vanishes operands r (Recipe.apply o.signature.name [a, b] >>= next) := by
  refine vanishes_null o ?_ (product.zero (by simpa using zero)) rest
  rw [product.shapes]
  exact ofShape_two ha hb

/-- `a * b' + a' * b`, where the factor that is not differentiated may be anything. -/
theorem prunes_product (product : IsProduct o s t) (name : o.signature.name = "*")
    (deriv : (o.definition : Definition K).hooks.deriv = some fun _ => onTwo "*" productRule)
    (made : List.Forall₂ OfShape o.signature.operands operands) : Prunes o operands := by
  rw [product.shapes] at made
  rcases made with _ | ⟨ha, _ | ⟨hb, _ | _⟩⟩
  intro hook wrt same
  obtain rfl := Option.some.inj (same.symm.trans deriv)
  refine vanishes_derive (by simp) ha fun da hda => ?_
  refine vanishes_derive (by simp) hb fun db hdb => ?_
  rw [Recipe.mul, Recipe.mul, ← name]
  refine vanishes_product product ha hdb.ofShape (.inr hdb.isZero) fun l hl => ?_
  refine vanishes_product product hda.ofShape hb (.inl hda.isZero) fun r hr => ?_
  exact vanishes_sum product.known hl hr

/-- `a' * b + a * b'` for the products of two vectors. -/
theorem prunes_vectorProduct (product : IsProduct o s t)
    (deriv : (o.definition : Definition K).hooks.deriv =
      some fun _ => onTwo o.signature.name fun a b => do
        let da ← derive a
        let db ← derive b
        let left ← .apply o.signature.name [da, b]
        let right ← .apply o.signature.name [a, db]
        .add left right)
    (made : List.Forall₂ OfShape o.signature.operands operands) : Prunes o operands := by
  rw [product.shapes] at made
  rcases made with _ | ⟨ha, _ | ⟨hb, _ | _⟩⟩
  intro hook wrt same
  obtain rfl := Option.some.inj (same.symm.trans deriv)
  refine vanishes_derive (by simp) ha fun da hda => ?_
  refine vanishes_derive (by simp) hb fun db hdb => ?_
  refine vanishes_product product hda.ofShape hb (.inl hda.isZero) fun l hl => ?_
  refine vanishes_product product ha hdb.ofShape (.inr hdb.isZero) fun r hr => ?_
  exact vanishes_sum product.known hl hr

theorem isProduct_multiplication : IsProduct .multiplication .scalar .scalar :=
  ⟨rfl, nofun, id⟩

theorem isProduct_scaling (h : s.isScalar = false) : IsProduct (.scaling s h) .scalar s :=
  ⟨rfl, Shape.ne_genericScalar h, id⟩

theorem isProduct_innerProduct (h : s.isScalar = false) : IsProduct (.innerProduct s h) s s :=
  ⟨rfl, nofun, id⟩

theorem isProduct_matrixProduct (h : s.isMatrix = true) : IsProduct (.matrixProduct s h) s s :=
  ⟨rfl, Shape.ne_genericScalar (Shape.isScalar_of_isMatrix h), id⟩

theorem isProduct_columnProduct (h : IsColumn s t) : IsProduct (.columnProduct s t h) s t :=
  ⟨rfl, h.column_ne, id⟩

theorem isProduct_outerProduct (h : IsColumn s t) : IsProduct (.outerProduct s t h) t t :=
  ⟨rfl, h.matrix_ne, id⟩

/-- `(a' * b - a * b') / (b * b)` has a numerator that vanishes. -/
theorem prunes_division (made : List.Forall₂ OfShape [.scalar, .scalar] operands) :
    Prunes .division operands := by
  rcases made with _ | ⟨ha, _ | ⟨hb, _ | _⟩⟩
  intro hook wrt same
  cases same
  have factors := isProduct_multiplication
  refine vanishes_derive (by simp) ha fun da hda => ?_
  refine vanishes_derive (by simp) hb fun db hdb => ?_
  refine vanishes_product factors hda.ofShape hb (.inl hda.isZero) fun l hl => ?_
  refine vanishes_product factors ha hdb.ofShape (.inr hdb.isZero) fun r hr => ?_
  refine vanishes_null (.subtraction .scalar nofun) (ofShape_two hl.ofShape hr.ofShape)
    (by simp [Operator.Annihilates, hl.isZero, hr.isZero]) fun top htop => ?_
  refine vanishes_made .multiplication (ofShape_two hb hb) fun bottom hbottom => ?_
  exact vanishes_apply .division (ofShape_two htop.ofShape hbottom)
    (by simp [Operator.Annihilates, htop.isZero])

/-- A slope times the derivative of the angle. -/
theorem vanishes_chain {slope : Node K} (hs : OfShape .scalar slope) (ha : Null .scalar a) :
    Vanishes operands .scalar (Recipe.mul slope a) :=
  vanishes_apply .multiplication (ofShape_two hs ha.ofShape)
    (by simp [Operator.Annihilates, ha.isZero])

theorem prunes_cosine (made : List.Forall₂ OfShape [.scalar] operands) :
    Prunes .cosine operands := by
  rcases made with _ | ⟨ha, _ | _⟩
  intro hook wrt same
  cases same
  refine vanishes_derive (by simp) ha fun da hda => ?_
  refine vanishes_made .sine (.cons ha .nil) fun sine hs => ?_
  refine vanishes_made .negation (.cons hs .nil) fun slope hslope => ?_
  exact vanishes_chain hslope hda

theorem prunes_sine (made : List.Forall₂ OfShape [.scalar] operands) :
    Prunes .sine operands := by
  rcases made with _ | ⟨ha, _ | _⟩
  intro hook wrt same
  cases same
  refine vanishes_derive (by simp) ha fun da hda => ?_
  refine vanishes_made .cosine (.cons ha .nil) fun slope hslope => ?_
  exact vanishes_chain hslope hda

/-- The rotation times its generator is scaled by zero. -/
theorem prunes_axisRotation {id : NodeId} {r : AxisRotation} (h : axisRotations[id]? = some r)
    (made : List.Forall₂ OfShape [.scalar] operands) : Prunes (.axisRotation id r h) operands := by
  rcases made with _ | ⟨ha, _ | _⟩
  intro hook wrt same
  cases same
  have matrix := (AxisRotation.cells_at_rest r (List.mem_of_getElem? h)).1
  have generator : OfShape r.shape (.constant id (r.generator : Literal K)) :=
    ⟨.constant id (Literal.hasShape_ofFn r.shape _).complete, rfl⟩
  refine vanishes_derive (by simp) ha fun da hda => ?_
  refine vanishes_made (.axisRotation id r h) (.cons ha .nil) fun rotated hr => ?_
  refine vanishes_made (.matrixProduct r.shape matrix) (ofShape_two hr generator) fun slope hs => ?_
  exact vanishes_apply (.scaling r.shape (Shape.isScalar_of_isMatrix matrix))
    (ofShape_two hda.ofShape hs) (by simp [Operator.Annihilates, hda.isZero])

/-! ### Components -/

theorem prunes_selector (h : s.isScalar = false) {i : Nat} (lt : i < s.size)
    (made : List.Forall₂ OfShape [s] operands) : Prunes (.selector s h i lt) operands := by
  rcases made with _ | ⟨ha, _ | _⟩
  intro hook wrt same
  cases same
  refine vanishes_derive (by simp) ha fun da hda => ?_
  rw [Recipe.select, hda.ofShape.shape]
  exact vanishes_apply (.selector s h i lt) (.cons hda.ofShape .nil)
    (by simp [Operator.Annihilates, hda.isZero])

omit [Field K] [FieldArithmetic K] in
/-- A zero constant for each element of a list. -/
theorem vanishes_each {α : Type} {l : List α} {f : α → Recipe K (Node K) (Node K) (Node K)}
    {next : List (Node K) → Recipe K (Node K) (Node K) (Node K)}
    (each : ∀ x ∈ l, Vanishes operands s (f x))
    (rest : ∀ ns, List.Forall₂ Null (List.replicate l.length s) ns →
      Vanishes operands t (next ns)) :
    Vanishes operands t (Recipe.each f l >>= next) := by
  refine Recipe.Ensures.bind ((Recipe.Ensures.each each).mono ?_)
  rintro asked ns ⟨parts, -, rfl, answered⟩
  refine rest _ ?_
  clear rest each
  induction answered with
  | nil => exact .nil
  | cons first _ ih => exact .cons first ih

omit [Field K] [FieldArithmetic K] in
theorem vanishes_deriveEach {next : List (Node K) → Recipe K (Node K) (Node K) (Node K)}
    (scalars : ∀ n ∈ operands, OfShape .scalar n)
    (rest : ∀ ns, List.Forall₂ Null (List.replicate operands.length .scalar) ns →
      Vanishes operands t (next ns)) :
    Vanishes operands t (Recipe.each derive operands >>= next) :=
  vanishes_each (fun n hn => ⟨hn, fun _ null => (scalars n hn).shape ▸ null⟩) rest

theorem vanishes_assemble (h : s.isScalar = false) {ns : List (Node K)}
    (nulls : List.Forall₂ Null (List.replicate s.size .scalar) ns) :
    Vanishes operands s (Recipe.assemble s ns) :=
  vanishes_apply (.constructor s h) (nulls.imp fun _ _ null => null.ofShape) fun n hn =>
    (forall_of_replicate _ nulls n hn).isZero

theorem prunes_constructor (h : s.isScalar = false)
    (made : List.Forall₂ OfShape (List.replicate s.size .scalar) operands) :
    Prunes (.constructor s h) operands := by
  intro hook wrt same
  cases same
  refine vanishes_deriveEach (forall_of_replicate _ made) fun ns nulls => ?_
  rw [← made.length_eq, List.length_replicate] at nulls
  exact vanishes_assemble h nulls

/-- Zero constants take their places among zeros. -/
theorem prunes_filledIdentity {positions : List Nat}
    {optimize : List (Node K) → Rule K (Option (Node K))} {name : String}
    (definition : (o.definition : Definition K) = filledIdentity name positions optimize)
    (result : o.signature.result = .mat44) (scalars : ∀ n ∈ operands, OfShape .scalar n) :
    Prunes o operands := by
  intro hook wrt same
  rw [definition] at same
  cases same
  refine vanishes_deriveEach scalars fun ds nulls => ?_
  refine vanishes_each (s := .scalar) (fun i _ => ?_) fun ns nulls => ?_
  · split
    · rename_i n found
      rcases Option.bind_eq_some_iff.1 found with ⟨k, -, place⟩
      exact forall_of_replicate _ nulls n (List.mem_of_getElem? place)
    · exact fun id => ⟨id, rfl⟩
  · rw [result]
    exact vanishes_assemble rfl nulls

/-! ### All operators -/

/-- Whatever hook is carried out on derivatives that vanish, its answer is the zero constant. -/
theorem prunes (o : Operator) (made : List.Forall₂ OfShape o.signature.operands operands) :
    Prunes o operands := by
  cases o with
  | addition | subtraction =>
      exact prunes_linearTwo rfl rfl (by simp +contextual [Operator.Annihilates]) made
  | negation | transposition =>
      exact prunes_linearOne rfl rfl (by simp [Operator.Annihilates]) made
  | selector s h i lt => exact prunes_selector h lt made
  | constructor s h => exact prunes_constructor h made
  | multiplication => exact prunes_product isProduct_multiplication rfl rfl made
  | scaling s h => exact prunes_product (isProduct_scaling h) rfl rfl made
  | matrixProduct s h => exact prunes_product (isProduct_matrixProduct h) rfl rfl made
  | columnProduct m v h => exact prunes_product (isProduct_columnProduct h) rfl rfl made
  | innerProduct s h => exact prunes_vectorProduct (isProduct_innerProduct h) rfl made
  | outerProduct m v h => exact prunes_vectorProduct (isProduct_outerProduct h) rfl made
  | division => exact prunes_division made
  | cosine => exact prunes_cosine made
  | sine => exact prunes_sine made
  | axisRotation id r h => exact prunes_axisRotation h made
  | shift => exact prunes_filledIdentity (o := .shift) rfl rfl (forall_of_replicate 3 made)
  | axisScaling =>
      exact prunes_filledIdentity (o := .axisScaling) rfl rfl (forall_of_replicate 3 made)
  -- these two have no hook
  | axisAngleRotation | fromHomogeneous =>
      intro _ _ hook
      cases hook

/-! ## The pass -/

/-- The registry makes what a hook may take for granted. -/
theorem make_annihilating (k : Construction K) (p : Node K → Prop) (h : annihilating.grant k p) :
    Triple (fun _ => True) ((Registry.standard : Registry K).make k) (fun n _ => p n) never := by
  cases k with
  | constant v => exact newConstant_triple h
  | apply name operands =>
      rcases h with ⟨o, rfl, made, next⟩
      by_cases annihilates : o.Annihilates operands
      · exact (make_null made annihilates).relax fun n _ null => next n null.ofShape fun _ => null
      · exact (make_ofShape made).relax fun n _ hn => next n hn fun h => absurd h annihilates
  | leaf | applyFor => exact h.elim

/-- Whatever is remembered of the nodes of an expression is the zero constant of their shape. -/
abbrev Pruned (e : Node K) (memo : Memo K) : Prop :=
  Records (fun n m => Null n.shape m) e memo

variable {e w : Node K} {again : Node K → Pass K (Node K)}

/-- Carrying a hook out, if the derivatives of the operands vanish. -/
theorem differentiate_prunes {id : NodeId} {answer : Node K → Pass K (Node K)}
    (differentiable : o.IsDifferentiable)
    (made : List.Forall₂ OfShape o.signature.operands operands)
    (answers : ∀ n ∈ operands, Triple (fun s => Pruned e s.2) (answer n)
      (fun m s => Null n.shape m ∧ Pruned e s.2) never) :
    Triple (fun s => Pruned e s.2)
      ((Registry.standard : Registry K).differentiate w id o.signature operands answer)
      (fun m s => Null o.signature.result m ∧ Pruned e s.2) never := by
  rcases Option.isSome_iff_exists.1 (o.deriv_isSome (K := K) differentiable) with ⟨deriv, hook⟩
  rw [Registry.differentiate, o.hooks_eq, hook]
  refine Triple.bind (m := fun _ s => Pruned e s.2)
    (.within fun _ => .record fun _ h => h) fun _ => ?_
  refine Triple.bind ((prunes o made deriv w hook).triple
    (fun _ (s : Workspace K × Memo K) => Pruned e s.2) ?_ ?_) fun m => ?_
  · -- work on the workspace does not touch the memo
    exact fun _ k p granted => Triple.inside (Pruned e) (make_annihilating k p granted)
  · rintro _ n p ⟨hn, next⟩
    exact (answers n hn).relax fun m s h => ⟨next m h.1, h.2⟩
  · -- the check of the shape is passed
    rintro s ⟨_, null, pruned⟩
    rw [if_neg (not_not_intro null.ofShape.shape)]
    exact ⟨null, pruned⟩

theorem deriveWith_prunes (typed : Typed e) (smooth : Smooth e) (coherent : Node.Coherent [e])
    (apart : ∀ n, e.Reaches n → n.id ≠ w.id) (below : e.Reaches n) :
    Triple (fun s => Pruned e s.2) ((Registry.standard : Registry K).deriveWith w again n)
      (fun m s => Null n.shape m ∧ Pruned e s.2) never := by
  have unique {n : Node K} (below : e.Reaches n) (x : Node K) (hx : e.Reaches x)
      (same : x.id = n.id) : x = n :=
    coherent.eq_of_reaches hx below same
  induction n using Node.induct with
  | constant id v =>
      rw [Registry.deriveWith]
      refine recording_triple below (unique below) ?_
      exact Triple.inside (Pruned e) (newConstant_triple fun i => ⟨i, rfl⟩)
  | leaf id name s =>
      -- another leaf than the one of differentiation
      have other : ¬ id = w.id := apart _ below
      rw [Registry.deriveWith]
      refine recording_triple below (unique below) ?_
      exact Triple.inside (Pruned e) (newConstant_triple fun i => ⟨i, by rw [if_neg other]; rfl⟩)
  | application id s operands ih =>
      have reaches (m : Node K) (hm : m ∈ operands) : e.Reaches m :=
        below.trans (.of_mem_operands hm)
      rcases Typed.operator (typed.of_reaches below) with ⟨o, rfl, shapes, operandsTyped⟩
      have differentiable := (smooth_application.1 (smooth.of_reaches below)).1
      rw [Registry.deriveWith]
      refine recording_triple below (unique below) ?_
      refine differentiate_prunes differentiable ?_ fun m hm => ?_
      · rw [← shapes]
        exact forall₂_ofShape operandsTyped
      · rw [Registry.answerDerivative_eq hm fun k hk same =>
          unique (reaches m hm) k (reaches k hk) same]
        exact ih m hm (reaches m hm)

/-- Differentiation prunes completely.  The derivative of an expression by a leaf that it does not
reach is itself the zero constant of the shape of the expression. -/
theorem derivative_prunes (typed : e.WellTyped (Registry.standard : Registry K).Knows)
    (smooth : Smooth e) (leaf : w.isLeaf = true) (coherent : Node.Coherent [e, w])
    (unreached : ¬ e.Reaches w) (ws : Workspace K) :
    ∃ m ws', ((Registry.standard : Registry K).derivative e w).runIn ws = (.ok m, ws') ∧
      m.isZero = true ∧ ∃ id, m = .constant id (.zero e.shape) := by
  have apart (n : Node K) (below : e.Reaches n) : n.id ≠ w.id := by
    intro same
    have equal : n = w := coherent e (by simp) w (by simp) n w below (.refl w) same
    exact unreached (equal ▸ below)
  have alone : Node.Coherent [e] := coherent.of_subset (by simp)
  have accepted : Registry.checkVariable w = .ok () := if_pos leaf
  have vanishes : Triple (fun _ => True) ((Registry.standard : Registry K).derivative e w)
      (fun m _ => Null e.shape m) never := by
    rw [Registry.derivative, accepted, Registry.deriveNext_eq]
    refine Triple.bind (m := fun _ _ => True) (.value fun _ _ => trivial) fun _ => ?_
    refine Triple.starting ((deriveWith_prunes typed smooth alone apart (.refl e)).weaken ?_
      (fun _ _ h => h.1) fun _ _ h => h)
    rintro ⟨_, memo⟩ ⟨_, rfl⟩
    exact Records.empty
  rcases vanishes.runIn_eq_ok (w := ws) trivial with ⟨m, ws', run, null⟩
  exact ⟨m, ws', run, null.isZero, null⟩

/-- A quotient of a sine, by a number that it does not contain. -/
theorem derivative_prunes_quotient :
    let x : Node ℚ := .leaf 4 "x" .scalar
    let y : Node ℚ := .leaf 5 "y" .scalar
    let z : Node ℚ := .leaf 6 "z" .scalar
    let sine : Node ℚ := .application 7 Operator.sine.signature [x]
    let quotient : Node ℚ := .application 8 Operator.division.signature [sine, y]
    quotient.WellTyped (Registry.standard : Registry ℚ).Knows ∧ Smooth quotient ∧
      z.isLeaf = true ∧ Node.Coherent [quotient, z] ∧ ¬ quotient.Reaches z ∧
      ∃ m ws', ((Registry.standard : Registry ℚ).derivative quotient z).runIn .standard =
          (.ok m, ws') ∧
        m.isZero = true ∧ ∃ id, m = .constant id (.zero .scalar) := by
  intro x y z sine quotient
  have typedSine : Typed sine :=
    typed_application .sine 7 rfl (List.forall_mem_singleton.2 (.leaf 4 "x" .scalar))
  have typed : Typed quotient :=
    typed_application .division 8 rfl
      (List.forall_mem_cons.2 ⟨typedSine, List.forall_mem_singleton.2 (.leaf 5 "y" .scalar)⟩)
  have smoothSine : Smooth sine :=
    smooth_application.2 ⟨⟨nofun, nofun⟩,
      List.forall_mem_singleton.2 (Node.appliesOnly_of_plain rfl)⟩
  have smooth : Smooth quotient :=
    smooth_application.2 ⟨⟨nofun, nofun⟩, List.forall_mem_cons.2
      ⟨smoothSine, List.forall_mem_singleton.2 (Node.appliesOnly_of_plain rfl)⟩⟩
  let nodes := [quotient, sine, x, y]
  have closed : ∀ n ∈ nodes, ∀ m ∈ n.operands, m ∈ nodes := by
    simp [nodes, quotient, sine, x, y]
  have coherent : Node.Coherent [quotient, z] := by
    have all : Node.Coherent (z :: nodes) :=
      .of_closed (by simp [nodes, quotient, sine, x, y, z])
        (by simp [nodes, quotient, sine, x, y, z])
    exact all.of_subset (by simp [nodes])
  have unreached : ¬ quotient.Reaches z := by
    intro below
    have impossible := below.mem_of_closed closed List.mem_cons_self
    simp [nodes, quotient, sine, x, y, z] at impossible
  exact ⟨typed, smooth, rfl, coherent, unreached,
    derivative_prunes typed smooth rfl coherent unreached .standard⟩

end

end Standard

end SymbolicLinalg
