import Mathlib.Data.List.Nodup
import SymbolicLinalg.Node.Typing
import SymbolicLinalg.Value

/-!
# Operator — the standard operators, family by family

`Standard.Operator` has one constructor for each family of standard operators, so that statements
about all of them split into one case a family.  No two operators share a name and the shapes of
their operands; hence a name and operands resolve to the operator, and a signature finds its hooks.
-/

namespace SymbolicLinalg

/-! ## Registries without overloads -/

namespace Registry

variable {K : Type} {r : Registry K}

/-- What `resolve` goes by. -/
def key (d : Definition K) : String × List Shape :=
  (d.signature.name, d.signature.operands)

/-- No two operators share a name and the shapes of their operands. -/
def Distinct (r : Registry K) : Prop :=
  (r.definitions.map key).Nodup

namespace Distinct

theorem eq_of_key (h : r.Distinct) {d e : Definition K} (hd : d ∈ r.definitions)
    (he : e ∈ r.definitions) (same : key d = key e) : d = e :=
  List.inj_on_of_nodup_map h hd he same

theorem candidates_eq (h : r.Distinct) {d : Definition K} (hd : d ∈ r.definitions) :
    r.candidates d.signature.name d.signature.operands = [d] := by
  have answers : ∀ e : Definition K,
      e.signature.answersTo d.signature.name d.signature.operands = true ↔ key e = key d := by
    intro e
    simp [Signature.answersTo, key]
  rw [candidates]
  have nodup := h
  rw [Distinct] at nodup
  revert nodup hd
  generalize r.definitions = definitions
  intro hd nodup
  induction definitions with
  | nil => exact absurd hd List.not_mem_nil
  | cons e rest ih =>
      rw [List.map_cons, List.nodup_cons] at nodup
      rcases List.mem_cons.1 hd with rfl | hd
      · -- nothing after the operator has its key
        have others : rest.filter
            (·.signature.answersTo d.signature.name d.signature.operands) = [] := by
          refine List.filter_eq_nil_iff.2 fun e he same => nodup.1 ?_
          exact List.mem_map.2 ⟨e, he, (answers e).1 same⟩
        rw [List.filter_cons_of_pos (by exact (answers d).2 rfl), others]
      · -- the operator comes later, and this one has another key
        have differs : ¬ key e = key d := fun same =>
          nodup.1 (same ▸ List.mem_map_of_mem hd)
        rw [List.filter_cons_of_neg (by exact fun same => differs ((answers e).1 same))]
        exact ih hd nodup.2

/-- A name and operands resolve to the operator that has them. -/
theorem resolve_eq (h : r.Distinct) {d : Definition K} (hd : d ∈ r.definitions) :
    r.resolve d.signature.name d.signature.operands = .ok d := by
  rw [resolve, h.candidates_eq hd]

theorem find?_eq (h : r.Distinct) {d : Definition K} (hd : d ∈ r.definitions) :
    r.find? d.signature = some d := by
  cases found : r.find? d.signature with
  | none =>
      have absent := List.find?_eq_none.1 found d hd
      simp at absent
  | some e =>
      have same : e.signature = d.signature := signature_of_find? found
      have he : e ∈ r.definitions := List.mem_of_find?_eq_some found
      rw [h.eq_of_key he hd (by rw [key, same]; rfl)]

end Distinct

end Registry

namespace Standard

/-! ## Families -/

/-- A vector shape is the column of a matrix shape. -/
def IsColumn (matrix column : Shape) : Prop :=
  (matrix, column) ∈ [(Shape.mat33, Shape.vec3), (.mat44, .vec4)]

inductive Operator where
  | addition (s : Shape) (h : s ≠ .genericScalar)
  | subtraction (s : Shape) (h : s ≠ .genericScalar)
  | negation
  | multiplication
  | division
  | cosine
  | sine
  | scaling (s : Shape) (h : s.isScalar = false)
  | innerProduct (s : Shape) (h : s.isScalar = false)
  | constructor (s : Shape) (h : s.isScalar = false)
  | selector (s : Shape) (h : s.isScalar = false) (position : Nat) (lt : position < s.size)
  | transposition (s : Shape) (h : s.isMatrix = true)
  | matrixProduct (s : Shape) (h : s.isMatrix = true)
  | columnProduct (matrix column : Shape) (h : IsColumn matrix column)
  | outerProduct (matrix column : Shape) (h : IsColumn matrix column)
  | axisRotation (id : NodeId) (r : AxisRotation) (h : axisRotations[id]? = some r)
  | shift
  | axisScaling
  | axisAngleRotation
  | fromHomogeneous

namespace Operator

def signature : Operator → Signature
  | .addition s _ => ⟨s, "+", [s, s]⟩
  | .subtraction s _ => ⟨s, "-", [s, s]⟩
  | .negation => ⟨.scalar, "-", [.scalar]⟩
  | .multiplication => ⟨.scalar, "*", [.scalar, .scalar]⟩
  | .division => ⟨.scalar, "/", [.scalar, .scalar]⟩
  | .cosine => ⟨.scalar, "cos", [.scalar]⟩
  | .sine => ⟨.scalar, "sin", [.scalar]⟩
  | .scaling s _ => ⟨s, "*", [.scalar, s]⟩
  | .innerProduct s _ => ⟨.scalar, "dot", [s, s]⟩
  | .constructor s _ => ⟨s, s.name, List.replicate s.size .scalar⟩
  | .selector s _ position _ => ⟨.scalar, Recipe.selectorName s position, [s]⟩
  | .transposition s _ => ⟨s, "trans", [s]⟩
  | .matrixProduct s _ => ⟨s, "*", [s, s]⟩
  | .columnProduct matrix column _ => ⟨column, "*", [matrix, column]⟩
  | .outerProduct matrix column _ => ⟨matrix, "outer", [column, column]⟩
  | .axisRotation _ r _ => ⟨r.shape, r.name, [.scalar]⟩
  | .shift => ⟨.mat44, "mat44Translation", [.scalar, .scalar, .scalar]⟩
  | .axisScaling => ⟨.mat44, "mat44Scale", [.scalar, .scalar, .scalar]⟩
  | .axisAngleRotation => ⟨.mat44, "mat44Rotation", [.vec3, .scalar]⟩
  | .fromHomogeneous => ⟨.vec3, "fromHomo", [.vec4]⟩

variable {K : Type} [Arithmetic K] [Numeral K]

def definition : Operator → Definition K
  | .addition s _ => Standard.addition s
  | .subtraction s _ => Standard.subtraction s
  | .negation => Standard.negation
  | .multiplication => Standard.multiplication
  | .division => Standard.division
  | .cosine => Standard.cosine
  | .sine => Standard.sine
  | .scaling s _ => Standard.scaling s
  | .innerProduct s _ => Standard.innerProduct s
  | .constructor s _ => Standard.constructor s
  | .selector s _ position _ => Standard.selector s position
  | .transposition s _ => Standard.transposition s
  | .matrixProduct s _ => Standard.matrixProduct s
  | .columnProduct matrix column _ => Standard.columnProduct matrix column
  | .outerProduct matrix column _ => Standard.outerProduct matrix column
  | .axisRotation id r _ => r.definition id
  | .shift => Standard.shift
  | .axisScaling => Standard.axisScaling
  | .axisAngleRotation => Standard.axisAngleRotation
  | .fromHomogeneous => Standard.fromHomogeneous

theorem definition_signature (o : Operator) :
    (o.definition : Definition K).signature = o.signature := by
  cases o <;> rfl

end Operator

variable {K : Type} [Arithmetic K] [Numeral K]

/-! ## The list of operators -/

theorem mem_shapes {s : Shape} : s ∈ [Shape.vec3, .vec4, .mat33, .mat44] ↔ s.isScalar = false := by
  cases s <;> decide

theorem mem_matrices {s : Shape} : s ∈ [Shape.mat33, .mat44] ↔ s.isMatrix = true := by
  cases s <;> decide

theorem mem_operators {d : Definition K} :
    d ∈ operators ↔
      d ∈ scalarOperators ∨
      (∃ s : Shape, s.isScalar = false ∧ (d ∈ linear s ∨ d = constructor s ∨ d ∈ selectors s)) ∨
      (∃ s : Shape, s.isMatrix = true ∧ (d = transposition s ∨ d = matrixProduct s)) ∨
      (∃ m v, IsColumn m v ∧ (d = columnProduct m v ∨ d = outerProduct m v)) ∨
      (∃ id, ∃ r : AxisRotation, axisRotations[id]? = some r ∧ r.definition id = d) ∨
      d = shift ∨ d = axisScaling ∨ d = axisAngleRotation ∨ d = fromHomogeneous := by
  have rotations : d ∈ axisRotations.mapIdx (fun id r => r.definition id) ↔
      ∃ id, ∃ r : AxisRotation, axisRotations[id]? = some r ∧ r.definition id = d := by
    constructor
    · intro h
      rcases List.mem_mapIdx.1 h with ⟨id, lt, rfl⟩
      exact ⟨id, _, List.getElem?_eq_getElem lt, rfl⟩
    · rintro ⟨id, r, h, rfl⟩
      rcases List.getElem?_eq_some_iff.1 h with ⟨lt, rfl⟩
      exact List.mem_mapIdx.2 ⟨id, lt, rfl⟩
  -- a matrix shape comes with the shape of its columns
  have columns : d ∈ [(Shape.mat33, Shape.vec3), (.mat44, .vec4)].flatMap
        (fun c => [columnProduct c.1 c.2, outerProduct c.1 c.2]) ↔
      ∃ m v, IsColumn m v ∧ (d = columnProduct m v ∨ d = outerProduct m v) := by
    rw [List.mem_flatMap]
    constructor
    · rintro ⟨⟨m, v⟩, h, hd⟩
      exact ⟨m, v, h, by simpa using hd⟩
    · intro known
      rcases known with ⟨m, v, h, hd⟩
      exact ⟨⟨m, v⟩, h, by simpa using hd⟩
  -- the lists of shapes are characterised before they are taken apart
  simp only [operators, List.mem_append, rotations, columns, List.mem_flatMap, mem_shapes,
    mem_matrices]
  simp only [List.mem_cons, List.not_mem_nil, or_false, or_assoc]

theorem definition_mem_operators (o : Operator) : (o.definition : Definition K) ∈ operators := by
  rw [mem_operators]
  cases o with
  | addition s h =>
      -- the scalar operator is listed apart from those of vectors and matrices
      by_cases scalar : s.isScalar = false
      · exact .inr (.inl ⟨s, scalar, .inl (by simp [linear, Operator.definition])⟩)
      · have : s = .scalar := by
          cases s <;> simp_all [Shape.isScalar]
        subst this
        exact .inl (by simp [scalarOperators, Operator.definition])
  | subtraction s h =>
      by_cases scalar : s.isScalar = false
      · exact .inr (.inl ⟨s, scalar, .inl (by simp [linear, Operator.definition])⟩)
      · have : s = .scalar := by
          cases s <;> simp_all [Shape.isScalar]
        subst this
        exact .inl (by simp [scalarOperators, Operator.definition])
  | negation | multiplication | division | cosine | sine =>
      exact .inl (by simp [scalarOperators, Operator.definition])
  | scaling s h | innerProduct s h =>
      exact .inr (.inl ⟨s, h, .inl (by simp [linear, Operator.definition])⟩)
  | constructor s h => exact .inr (.inl ⟨s, h, .inr (.inl rfl)⟩)
  | selector s h position lt =>
      refine .inr (.inl ⟨s, h, .inr (.inr ?_)⟩)
      exact List.mem_map.2 ⟨position, List.mem_range.2 lt, rfl⟩
  | transposition s h => exact .inr (.inr (.inl ⟨s, h, .inl rfl⟩))
  | matrixProduct s h => exact .inr (.inr (.inl ⟨s, h, .inr rfl⟩))
  | columnProduct m v h => exact .inr (.inr (.inr (.inl ⟨m, v, h, .inl rfl⟩)))
  | outerProduct m v h => exact .inr (.inr (.inr (.inl ⟨m, v, h, .inr rfl⟩)))
  | axisRotation id r h => exact .inr (.inr (.inr (.inr (.inl ⟨id, r, h, rfl⟩))))
  | shift | axisScaling | axisAngleRotation | fromHomogeneous => simp [Operator.definition]

theorem exists_operator {d : Definition K} (h : d ∈ operators) :
    ∃ o : Operator, o.definition = d := by
  have inScalars (h : d ∈ scalarOperators) : ∃ o : Operator, o.definition = d := by
    simp only [scalarOperators, List.mem_cons, List.not_mem_nil, or_false] at h
    rcases h with rfl | rfl | rfl | rfl | rfl | rfl | rfl
    · exact ⟨.addition .scalar (by decide), rfl⟩
    · exact ⟨.subtraction .scalar (by decide), rfl⟩
    · exact ⟨.negation, rfl⟩
    · exact ⟨.multiplication, rfl⟩
    · exact ⟨.division, rfl⟩
    · exact ⟨.cosine, rfl⟩
    · exact ⟨.sine, rfl⟩
  have inLinear {s : Shape} (hs : s.isScalar = false) (h : d ∈ linear s) :
      ∃ o : Operator, o.definition = d := by
    -- a shape with components is not the generic scalar
    have known : s ≠ .genericScalar := by
      rintro rfl
      exact absurd hs (by decide)
    simp only [linear, List.mem_cons, List.not_mem_nil, or_false] at h
    rcases h with rfl | rfl | rfl | rfl
    · exact ⟨.addition s known, rfl⟩
    · exact ⟨.subtraction s known, rfl⟩
    · exact ⟨.scaling s hs, rfl⟩
    · exact ⟨.innerProduct s hs, rfl⟩
  rcases mem_operators.1 h with h | ⟨s, hs, h | rfl | h⟩ | ⟨s, hs, rfl | rfl⟩ |
    ⟨m, v, hm, rfl | rfl⟩ | ⟨id, r, hr, rfl⟩ | rfl | rfl | rfl | rfl
  · exact inScalars h
  · exact inLinear hs h
  · exact ⟨.constructor s hs, rfl⟩
  · rcases List.mem_map.1 h with ⟨position, lt, rfl⟩
    exact ⟨.selector s hs position (List.mem_range.1 lt), rfl⟩
  · exact ⟨.transposition s hs, rfl⟩
  · exact ⟨.matrixProduct s hs, rfl⟩
  · exact ⟨.columnProduct m v hm, rfl⟩
  · exact ⟨.outerProduct m v hm, rfl⟩
  · exact ⟨.axisRotation id r hr, rfl⟩
  · exact ⟨.shift, rfl⟩
  · exact ⟨.axisScaling, rfl⟩
  · exact ⟨.axisAngleRotation, rfl⟩
  · exact ⟨.fromHomogeneous, rfl⟩

/-! ## Signatures -/

/-- The signatures do not depend on the components. -/
def signatures : List Signature :=
  (operators : List (Definition Float)).map (·.signature)

theorem map_signature_operators :
    (operators : List (Definition K)).map (·.signature) = signatures := rfl

theorem nodup_signatures : (signatures.map fun s => (s.name, s.operands)).Nodup := by
  decide +kernel

theorem map_key_standard : (Registry.standard : Registry K).definitions.map Registry.key =
    signatures.map fun s => (s.name, s.operands) := by
  rw [Registry.standard, ← map_signature_operators (K := K), List.map_map]
  rfl

theorem standard_distinct : (Registry.standard : Registry K).Distinct := by
  rw [Registry.Distinct, map_key_standard]
  exact nodup_signatures

theorem knows_iff {s : Signature} :
    (Registry.standard : Registry K).Knows s ↔ ∃ o : Operator, o.signature = s := by
  constructor
  · intro found
    rcases found with ⟨d, hd, rfl⟩
    rcases exists_operator hd with ⟨o, rfl⟩
    exact ⟨o, (o.definition_signature (K := K)).symm⟩
  · intro found
    rcases found with ⟨o, rfl⟩
    exact ⟨o.definition, definition_mem_operators o, o.definition_signature⟩

theorem signature_mem_signatures (o : Operator) : o.signature ∈ signatures := by
  rw [← map_signature_operators (K := Float), ← o.definition_signature (K := Float)]
  exact List.mem_map_of_mem (definition_mem_operators o)

namespace Operator

theorem resolve_eq (o : Operator) :
    (Registry.standard : Registry K).resolve o.signature.name o.signature.operands =
      .ok o.definition := by
  rw [← o.definition_signature (K := K)]
  exact standard_distinct.resolve_eq (definition_mem_operators o)

theorem find?_eq (o : Operator) :
    (Registry.standard : Registry K).find? o.signature = some o.definition := by
  rw [← o.definition_signature (K := K)]
  exact standard_distinct.find?_eq (definition_mem_operators o)

theorem hooks_eq (o : Operator) :
    (Registry.standard : Registry K).hooks o.signature = o.definition.hooks := by
  rw [Registry.hooks, o.find?_eq]

end Operator

/-- Whatever hook a signature has is that of an operator. -/
theorem operator_of_hook {β : Type} (F : Hooks K → Option β) (none : F {} = none) {s : Signature}
    {rule : β} (hook : F ((Registry.standard : Registry K).hooks s) = some rule) :
    ∃ o : Operator, o.signature = s ∧ F (o.definition : Definition K).hooks = some rule := by
  cases found : (Registry.standard : Registry K).find? s with
  | none =>
      rw [Registry.hooks, found] at hook
      exact absurd (hook.symm.trans none) (Option.some_ne_none rule)
  | some d =>
      rcases exists_operator (List.mem_of_find?_eq_some found) with ⟨o, rfl⟩
      have same := Registry.signature_of_find? found
      rw [o.definition_signature] at same
      rw [← same, o.hooks_eq] at hook
      exact ⟨o, same, hook⟩

end Standard

end SymbolicLinalg
