import SymbolicLinalg.Proofs.Assembly
import SymbolicLinalg.Proofs.Simplification

/-!
# Expansion — what lowering puts in place of an operator

The rotations about a coordinate axis, the shift and the axis scaling are expanded into a constructor
over all components.  The operators that are applied on the way are simplified in a way that is right
in any arithmetic: constants are folded, and a component is taken out of a constructor.  The minus
sign in a rotation stands before a sine, so no double negation is undone.

The way back from homogeneous coordinates is replaced by quotients, whose simplification relies on
the laws of a field.
-/

namespace SymbolicLinalg

namespace Standard

variable {K : Type} [Arithmetic K] [Numeral K] {Φ : Prop} {ρ : Assignment K} {lawful : Prop}
  {operands : List (Node K)} {values : List (Literal K)} {a : Node K} {A : Literal K}

/-- The operators that expansions apply. -/
def Permission.expanding (lawful : Prop) : Permission K
  | .cosine, _ | .sine, _ | .constructor _ _, _ | .selector _ _ _ _, _ => True
  | .negation, operands => ∀ n ∈ operands, n.applies "-" = false
  | .division, _ => lawful
  | _, _ => False

/-- The terms on which operators are expanded. -/
abbrev expanding (lawful : Prop) (Φ : Prop) (ρ : Assignment K) : Recipe.Contract K Empty Empty :=
  ⟨building (.expanding lawful) Φ ρ, .none Empty Empty⟩

/-- The registry makes whatever an expansion may take for granted. -/
theorem carries_expanding :
    Carries (.expanding (Φ → IsFieldArithmetic K)) Φ ρ (Registry.standard : Registry K).make := by
  refine carries_makeWith (carries_none (nestingLimit - 2)) ?_
  intro o operands values denotes allows
  cases o with
  | cosine => exact simplifies_cosine denotes
  | sine => exact simplifies_sine denotes
  | constructor s h => exact simplifies_constructor h denotes
  | selector s h i lt => exact simplifies_selector h lt denotes
  | division => exact simplifies_division allows denotes
  | negation =>
      rcases denotes with _ | ⟨ha, _ | _⟩
      exact simplifies_negation_of_positive ha (allows _ (List.mem_singleton_self _))
  | _ => exact allows.elim

/-! ## Rotations -/

theorem AxisRotation.cells_length : ∀ r ∈ axisRotations, r.cells.length = r.shape.size := by
  decide

/-- The cells of a rotation, place by place. -/
theorem AxisRotation.map_cells {r : AxisRotation} (h : r ∈ axisRotations) {β : Type}
    (f : Cell → β) : r.cells.map f = (List.range r.shape.size).map fun i => f (r.cell i) := by
  refine List.ext_getElem (by simp [r.cells_length h]) ?_
  intro i hi _
  have lt : i < r.cells.length := by simpa using hi
  simp [AxisRotation.cell, List.getD_eq_getElem?_getD, lt]

theorem ensures_expansion {r : AxisRotation} (h : r ∈ axisRotations)
    (ha : Denotes Φ ρ a .scalar A) :
    (r.expansion a).Ensures (expanding lawful Φ ρ) fun _ n =>
      Denotes Φ ρ n r.shape (r.value (A.component 0)) := by
  let α := A.component 0
  have angle (hΦ : Φ) : A = .scalar α := (ha.hasShape hΦ).eq_scalar
  refine Recipe.Ensures.bind (ensures_apply .cosine (.one ha) trivial fun c hc => ?_)
  -- that the sine is no negation is needed for the minus sign
  refine Recipe.Ensures.bind ⟨.sine, [A], rfl, .one ha, trivial, fun s hs => ?_⟩
  have positive : ∀ n ∈ [s], n.applies "-" = false :=
    List.forall_mem_singleton.2 (hs.positive rfl)
  refine Recipe.Ensures.bind
    (ensures_apply .negation (.one hs.denotes) positive fun negS hnegS => ?_)
  have cosine : Denotes Φ ρ c .scalar (.scalar (Arithmetic.cos α)) := by
    refine hc.of_eq ?_
    intro hΦ
    rw [Operator.value_cosine, angle hΦ, Literal.map_scalar]
  have sine : Denotes Φ ρ s .scalar (.scalar (Arithmetic.sin α)) := by
    refine hs.denotes.of_eq ?_
    intro hΦ
    rw [Operator.value_sine, angle hΦ, Literal.map_scalar]
  have negative : Denotes Φ ρ negS .scalar (.scalar (Arithmetic.neg (Arithmetic.sin α))) := by
    refine hnegS.of_eq ?_
    intro hΦ
    rw [Operator.value_negation, Operator.value_sine, angle hΦ, Literal.map_scalar,
      Literal.map_scalar]
  have cells : (Recipe.each (AxisRotation.cellNode c s negS) r.cells).Ensures
      (expanding lawful Φ ρ) fun asked ns =>
        asked = r.cells.flatMap (fun _ => []) ∧
          DenoteAll Φ ρ ns (List.replicate r.cells.length .scalar)
            (r.cells.map fun cell => .scalar (cell.value (Arithmetic.cos α) (Arithmetic.sin α))) := by
    refine ensures_each ?_
    intro cell _
    cases cell with
    | zero | one => exact ensures_constant (Literal.hasShape_scalar _) fun n hn => ⟨rfl, hn⟩
    | cos => exact ⟨rfl, cosine⟩
    | sin => exact ⟨rfl, sine⟩
    | negSin => exact ⟨rfl, negative⟩
  refine Recipe.Ensures.bind (cells.mono fun asked ns hns => ?_)
  -- the cells are read off the table, place by place
  have parts := hns.2
  rw [r.cells_length h, r.map_cells h] at parts
  have vector := Shape.isScalar_of_isMatrix (AxisRotation.cells_at_rest r h).1
  exact ensures_assemble vector parts trivial fun n hn => hn

/-! ## Shifts and axis scaling -/

theorem ensures_filledIdentity {name : String} {positions : List Nat}
    {optimize : List (Node K) → Rule K (Option (Node K))}
    (denotes : DenoteAll Φ ρ operands (List.replicate positions.length .scalar) values)
    {expand : List (Node K) → Rule K (Option (Node K))}
    (hook : (filledIdentity name positions optimize).hooks.expand = some expand) :
    (expand operands).Ensures (expanding lawful Φ ρ) fun _ n? =>
      ∃ n, n? = some n ∧ Denotes Φ ρ n .mat44 (Operator.filled positions values) := by
  cases hook
  refine Recipe.Ensures.bind ((ensures_fillIn denotes _ _).mono fun asked ns hns => ?_)
  exact Recipe.Ensures.map (ensures_assemble rfl hns.2 trivial fun n hn => ⟨n, rfl, hn⟩)

/-! ## Homogeneous coordinates -/

theorem ensures_dehomogenization (allows : lawful) (ha : Denotes Φ ρ a .vec4 A)
    {replace : List (Node K) → Rule K (Node K)}
    (hook : (fromHomogeneous : Definition K).hooks.replace = some replace) :
    (replace [a]).Ensures (expanding lawful Φ ρ) fun _ n =>
      Denotes Φ ρ n .vec3 (dehomogenized A) := by
  cases hook
  refine Recipe.Ensures.bind (ensures_select rfl (by decide) ha trivial fun w hw => ?_)
  -- the first three components are divided by the last one
  have parts : (Recipe.each (fun i => do
        let x ← Recipe.select a i
        Recipe.div x w) [0, 1, 2]).Ensures (expanding lawful Φ ρ) fun asked ns =>
      asked = [0, 1, 2].flatMap (fun _ => []) ∧
        DenoteAll Φ ρ ns (List.replicate 3 .scalar)
          ([0, 1, 2].map fun i => .scalar (Arithmetic.div (A.component i) (A.component 3))) := by
    refine ensures_each ?_
    intro i hi
    have lt : i < Shape.vec4.size := by
      simp only [List.mem_cons, List.not_mem_nil, or_false] at hi
      rcases hi with rfl | rfl | rfl <;> decide
    refine Recipe.Ensures.bind (ensures_select rfl lt ha trivial fun x hx => ?_)
    refine ensures_apply .division (.two hx hw) allows fun n hn => ⟨rfl, hn.of_eq fun _ => ?_⟩
    rw [Operator.value_division, Literal.zipWith_scalar]
  refine Recipe.Ensures.bind (parts.mono fun asked ns hns => ?_)
  exact ensures_assemble rfl hns.2 trivial fun n hn => hn

/-! ## All operators -/

/-- Whatever an operator is expanded into stands for its value. -/
theorem ensures_expand (o : Operator) (denotes : DenoteAll Φ ρ operands o.signature.operands values)
    {expand : List (Node K) → Rule K (Option (Node K))}
    (hook : (o.definition : Definition K).hooks.expand = some expand) :
    (expand operands).Ensures (expanding lawful Φ ρ) fun _ n? =>
      ∃ n, n? = some n ∧ Denotes Φ ρ n o.signature.result (o.value values) := by
  cases o with
  | axisRotation id r h =>
      cases hook
      rcases denotes with _ | ⟨ha, _ | _⟩
      refine Recipe.Ensures.map ((ensures_expansion (List.mem_of_getElem? h) ha).mono ?_)
      intro asked n hn
      rw [Operator.value_axisRotation]
      exact ⟨n, rfl, hn⟩
  | shift =>
      rw [Operator.value_shift]
      exact ensures_filledIdentity denotes hook
  | axisScaling =>
      rw [Operator.value_axisScaling]
      exact ensures_filledIdentity denotes hook
  | _ => exact absurd hook nofun

/-- Whatever replaces an operator stands for its value. -/
theorem ensures_replace (o : Operator) (allows : lawful)
    (denotes : DenoteAll Φ ρ operands o.signature.operands values)
    {replace : List (Node K) → Rule K (Node K)}
    (hook : (o.definition : Definition K).hooks.replace = some replace) :
    (replace operands).Ensures (expanding lawful Φ ρ) fun _ n =>
      Denotes Φ ρ n o.signature.result (o.value values) := by
  cases o with
  | fromHomogeneous =>
      rcases denotes with _ | ⟨ha, _ | _⟩
      rw [Operator.value_fromHomogeneous]
      exact ensures_dehomogenization allows ha hook
  | _ => exact absurd hook nofun

end Standard

end SymbolicLinalg
