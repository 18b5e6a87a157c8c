import SymbolicLinalg.Proofs.Construction

/-!
# Assembly — recipes that take vectors and matrices apart and put them together

Rules for the steps that are common to derivatives, gradients and expansions: a recipe for each
element of a list, a component of a node, scalars at given places among constants, and the
constructor of a shape over all of its components.
-/

namespace SymbolicLinalg

namespace Standard

variable {K : Type} [Arithmetic K] [Numeral K] {Φ : Prop} {ρ : Assignment K}
  {allowed : Permission K} {κ σ : Type} {asks : Recipe.Terms κ σ} {s : Shape}

/-- A node for each element of a list. -/
theorem ensures_each {α : Type} {l : List α} {f : α → Recipe K κ σ (Node K)}
    {R : α → List κ} {V : α → Literal K}
    (h : ∀ a ∈ l, (f a).Ensures ⟨building allowed Φ ρ, asks⟩ fun asked n =>
      asked = R a ∧ Denotes Φ ρ n s (V a)) :
    (Recipe.each f l).Ensures ⟨building allowed Φ ρ, asks⟩ fun asked ns =>
      asked = l.flatMap R ∧ DenoteAll Φ ρ ns (List.replicate l.length s) (l.map V) := by
  refine (Recipe.Ensures.each h).mono ?_
  intro asked ns answered
  rcases answered with ⟨parts, rfl, rfl, hparts⟩
  clear h
  induction hparts with
  | nil => exact ⟨rfl, .nil⟩
  | @cons a part rest parts first _ ih =>
      refine ⟨?_, .cons first.2 ih.2⟩
      rw [List.map_cons, List.flatten_cons, ih.1, first.1, List.flatMap_cons]

theorem ensures_select {post : List κ → Node K → Prop} {a : Node K} {A : Literal K}
    (h : s.isScalar = false) {i : Nat} (lt : i < s.size) (ha : Denotes Φ ρ a s A)
    (allows : allowed (.selector s h i lt) [a])
    (next : ∀ n, Denotes Φ ρ n .scalar (.scalar (A.component i)) → post [] n) :
    (Recipe.select a i).Ensures ⟨building allowed Φ ρ, asks⟩ post := by
  rw [Recipe.select, ha.shape]
  refine ensures_apply (.selector s h i lt) (.one ha) allows fun n hn => next n ?_
  rwa [Operator.value_selector] at hn

/-- The node at a place of a list of scalars. -/
theorem DenoteAll.getElem? {ns : List (Node K)} {n : Nat} {values : List (Literal K)}
    (h : DenoteAll Φ ρ ns (List.replicate n .scalar) values) {k : Nat} (hk : k < n) :
    ∃ m, ns[k]? = some m ∧ Denotes Φ ρ m .scalar (.scalar (scalarAt values k)) := by
  induction n generalizing ns values k with
  | zero => exact absurd hk (Nat.not_lt_zero k)
  | succ n ih =>
      cases h with
      | @cons m _ v ns _ vs head tail =>
          cases k with
          | zero => exact ⟨m, rfl, head.of_eq fun hΦ => (head.hasShape hΦ).eq_scalar⟩
          | succ k => exact ih tail (Nat.lt_of_succ_lt_succ hk)

theorem ensures_fillIn {positions : List Nat} {nodes : List (Node K)} {values : List (Literal K)}
    (denotes : DenoteAll Φ ρ nodes (List.replicate positions.length .scalar) values)
    (rest : Nat → K) (l : List Nat) :
    (fillIn positions nodes rest l).Ensures ⟨building allowed Φ ρ, asks⟩ fun asked ns =>
      asked = [] ∧ DenoteAll Φ ρ ns (List.replicate l.length .scalar)
        (l.map fun i => .scalar (Operator.filledComponent positions values rest i)) := by
  refine (ensures_each (R := fun _ => [])
    (V := fun i => .scalar (Operator.filledComponent positions values rest i)) fun i _ => ?_).mono
    fun asked ns h => ⟨h.1.trans (List.flatMap_eq_nil_iff.2 fun _ _ => rfl), h.2⟩
  rw [Operator.filledComponent]
  cases place : operandPlace? positions i with
  | none => exact ensures_constant (Literal.hasShape_scalar _) fun n hn => ⟨rfl, hn⟩
  | some k =>
      have lt : k < positions.length := by
        rw [operandPlace?, List.idxOf?_eq_some_iff] at place
        exact place.1
      rcases denotes.getElem? lt with ⟨m, found, hm⟩
      simp only [Option.bind_some, found]
      exact ⟨rfl, hm⟩

omit [Numeral K] in
theorem scalarAt_map_range {n i : Nat} (hi : i < n) (X : Nat → K) :
    scalarAt ((List.range n).map fun i => Literal.scalar (X i)) i = X i := by
  rw [scalarAt]
  simp [List.getD_eq_getElem?_getD, hi]

/-- The constructor of a shape over all the components. -/
theorem ensures_assemble {post : List κ → Node K → Prop} {ns : List (Node K)} {X : Nat → K}
    (h : s.isScalar = false)
    (denotes : DenoteAll Φ ρ ns (List.replicate s.size .scalar)
      ((List.range s.size).map fun i => .scalar (X i)))
    (allows : allowed (.constructor s h) ns)
    (next : ∀ n, Denotes Φ ρ n s (.ofFn s X) → post [] n) :
    (Recipe.assemble s ns).Ensures ⟨building allowed Φ ρ, asks⟩ post := by
  refine ensures_apply (.constructor s h) denotes allows fun n hn => next n (hn.of_eq fun _ => ?_)
  rw [Operator.value_constructor]
  refine (Literal.hasShape_ofFn s _).ext (Literal.hasShape_ofFn s _) ?_
  intro i hi
  rw [Literal.component_ofFn hi, Literal.component_ofFn hi, scalarAt_map_range hi]

end Standard

end SymbolicLinalg
