import SymbolicLinalg.Proofs.Rational
import SymbolicLinalg.Proofs.Simplification

/-!
# Soundness — construction keeps the value

Over a field, applying a standard operator to well-typed operands that fit it always comes to a node,
of the shape of the result, which stands for the value of the operator at the values of the operands.
The node is one and the same for every assignment.

* `applying_operator_keeps_value`: for `build`, `apply` and `applyFor`.
-/

namespace SymbolicLinalg

namespace Standard

variable {K : Type} [Arithmetic K] [Numeral K] [Field K] [FieldArithmetic K] [AngleArithmetic K]

section

variable {Φ : Prop} {ρ : Assignment K} {o : Operator} {operands : List (Node K)}
  {values : List (Literal K)}

theorem build_triple (denotes : DenoteAll Φ ρ operands o.signature.operands values) :
    Triple (fun _ => True) ((Registry.standard : Registry K).build o.definition operands)
      (fun n _ => Applied Φ ρ o values n) never :=
  buildWith_triple carries_make o denotes (simplifies o (fun _ _ _ _ _ _ => trivial) denotes)

theorem apply_triple (denotes : DenoteAll Φ ρ operands o.signature.operands values) :
    Triple (fun _ => True) ((Registry.standard : Registry K).apply o.signature.name operands)
      (fun n _ => Applied Φ ρ o values n) never :=
  carries_make _ _ ⟨o, values, rfl, denotes, trivial, fun _ hn => hn⟩

theorem applyFor_triple (denotes : DenoteAll Φ ρ operands o.signature.operands values) :
    Triple (fun _ => True)
      ((Registry.standard : Registry K).applyFor o.signature.result o.signature.name operands)
      (fun n _ => Applied Φ ρ o values n) never := by
  have found : (Registry.standard : Registry K).resolveAs o.signature.result o.signature.name
      (operands.map Node.shape) = .ok o.definition := by
    rw [denotes.shapes, Registry.resolveAs, o.find?_eq]
  have carries : Carries .all Φ ρ
      ((Registry.standard : Registry K).makeWithin (nestingLimit - 1)) :=
    carries_all (nestingLimit - 4)
  have built := buildWith_triple carries o denotes (simplifies o (fun _ _ _ _ _ _ => trivial) denotes)
  rw [Registry.applyFor, Registry.make_eq, Registry.makeWith, found]
  exact Triple.bind (m := fun d _ => d = o.definition) (.value fun _ _ => rfl)
    fun d w same => same ▸ built w trivial

end

/-- Whichever rule fires, the node that is made stands for the operator at its operands. -/
theorem applying_operator_keeps_value {d : Definition K}
    (hd : d ∈ (Registry.standard : Registry K).definitions) {operands : List (Node K)}
    (typed : ∀ m ∈ operands, m.WellTyped (Registry.standard : Registry K).Knows)
    (shapes : operands.map Node.shape = d.signature.operands) (w : Workspace K) :
    ∀ work ∈
      [(Registry.standard : Registry K).build d operands,
        (Registry.standard : Registry K).apply d.signature.name operands,
        (Registry.standard : Registry K).applyFor d.signature.result d.signature.name operands],
      ∃ n w', work.runIn w = (.ok n, w') ∧ n.shape = d.signature.result ∧
        n.WellTyped (Registry.standard : Registry K).Knows ∧
        ∀ ρ : Assignment K, (∀ m ∈ operands, ρ.Fits m) →
          ρ.Fits n ∧ n.value Standard.meaning ρ =
            Standard.meaning d.signature (operands.map (Node.value Standard.meaning ρ)) := by
  rcases exists_operator hd with ⟨o, rfl⟩
  rw [o.definition_signature] at shapes ⊢
  -- the assumption is that the assignment fits the operands
  have denotes (ρ : Assignment K) : DenoteAll (∀ m ∈ operands, ρ.Fits m) ρ operands
      o.signature.operands (operands.map (Node.value Standard.meaning ρ)) := by
    rw [← shapes]
    exact .of_typed typed id
  intro work hwork
  have triple (ρ : Assignment K) : Triple (fun _ => True) work
      (fun n _ => Applied (∀ m ∈ operands, ρ.Fits m) ρ o
        (operands.map (Node.value Standard.meaning ρ)) n) never := by
    simp only [List.mem_cons, List.not_mem_nil, or_false] at hwork
    rcases hwork with rfl | rfl | rfl
    · exact build_triple (denotes ρ)
    · exact apply_triple (denotes ρ)
    · exact applyFor_triple (denotes ρ)
  have some_assignment : Assignment K := fun _ => .zero .scalar
  rcases Triple.runIn_eq_ok_forall some_assignment triple (w := w) trivial with
    ⟨n, w', run, applied⟩
  have result := (applied some_assignment).denotes
  refine ⟨n, w', run, result.shape, result.typed, fun ρ fits => ?_⟩
  exact ⟨(applied ρ).denotes.fits fits, (applied ρ).denotes.value fits⟩

/-- The difference of zero and a vector is rebuilt as a multiple, and is the negative vector. -/
theorem difference_from_zero_keeps_value :
    let operands : List (Node ℚ) := [.constant 4 (.zero .vec3), .leaf 5 "x" .vec3]
    ∃ n w', ((Registry.standard : Registry ℚ).apply "-" operands).runIn .standard = (.ok n, w') ∧
      n.shape = .vec3 ∧ ∀ ρ : Assignment ℚ, (∀ m ∈ operands, ρ.Fits m) →
        n.value Standard.meaning ρ = (ρ 5).map Arithmetic.neg := by
  intro operands
  have known : (Standard.subtraction .vec3 : Definition ℚ) ∈
      (Registry.standard : Registry ℚ).definitions :=
    definition_mem_operators (.subtraction .vec3 nofun)
  have typed : ∀ m ∈ operands, m.WellTyped (Registry.standard : Registry ℚ).Knows :=
    List.forall_mem_cons.2 ⟨.constant 4 rfl, List.forall_mem_singleton.2 (.leaf 5 "x" .vec3)⟩
  rcases applying_operator_keeps_value known typed rfl .standard _ (.tail _ (.head _)) with
    ⟨n, w', run, shape, _, value⟩
  refine ⟨n, w', run, shape, fun ρ fits => (value ρ fits).2.trans ?_⟩
  have vector : (ρ 5).HasShape .vec3 :=
    fits (.leaf 5 "x" .vec3) (by simp [operands]) 5 "x" _ (.refl _)
  calc Standard.meaning (Standard.subtraction .vec3 : Definition ℚ).signature
        (operands.map (Node.value Standard.meaning ρ))
      = .zipWith Arithmetic.sub (.zero .vec3) (ρ 5) := Operator.value_subtraction _ _ .vec3 nofun
    _ = (ρ 5).map Arithmetic.neg := Literal.zero_sub vector

end Standard

end SymbolicLinalg
