import SymbolicLinalg.Proofs.Expansion
import SymbolicLinalg.Proofs.Hooks
import SymbolicLinalg.Proofs.LoweringPass
import SymbolicLinalg.Proofs.PostOrder

/-!
# Lowered — lowering keeps the value

A lowered form is made of plain operators only and stands for the value of what was lowered.  An
expansion is made over lowered operands with plain operators; when it is lowered in its turn nothing
in it is expanded again, so expansions are nested at most once.

* `lower_keeps_value`: lowering comes to an expression of the same value.
-/

namespace SymbolicLinalg

namespace Standard

variable {K : Type} [Arithmetic K] [Numeral K] {Φ : Prop} {ρ : Assignment K} {n m : Node K}
  {given others operands lowered : List (Node K)} {o : Operator} {values : List (Literal K)}

/-- Only operators that lowering leaves alone are applied. -/
abbrev Primitive (n : Node K) : Prop :=
  n.AppliesOnly fun s => IsPlain s.name

/-- The way back from homogeneous coordinates is not applied. -/
abbrev Cartesian (n : Node K) : Prop :=
  n.AppliesOnly fun s => s.name ≠ "fromHomo"

omit [Arithmetic K] [Numeral K] in
theorem Primitive.cartesian (h : Primitive n) : Cartesian n := by
  refine h.imp ?_
  intro s plain same
  rw [same] at plain
  exact absurd (by decide) plain

/-! ## Expansions -/

/-- What an application comes to over lowered operands: a plain operator is not expanded, and any
other is expanded into plain operators. -/
def Expanded (Φ : Prop) (ρ : Assignment K) (o : Operator) (values : List (Literal K))
    (given others : List (Node K)) (next : NodeId) : Option (Node K) → Prop
  | none => IsPlain o.signature.name ∧ Stock IsPlain given others next
  | some n => ¬ IsPlain o.signature.name ∧ Denotes Φ ρ n o.signature.result (o.value values) ∧
      Stock IsPlain (n :: given) others next

/-- What is expanded has the right value, and adds to the stock. -/
theorem followed_triple {α : Type} {rule : Rule K α} {value : α → Prop}
    {drawn : List (Node K) → α → Prop}
    (ensures : rule.Ensures (expanding (Φ → IsFieldArithmetic K) Φ ρ) fun _ a => value a)
    (draws : rule.Draws IsPlain given drawn) :
    Triple (fun w => Stock IsPlain given others w.nextId)
      (Registry.follow (Registry.standard : Registry K).make rule)
      (fun a w => value a ∧
        ∃ now, given ⊆ now ∧ drawn now a ∧ Stock IsPlain now others w.nextId) never := by
  have plain : IsPlain "*" := by decide
  -- the value and the nodes that are added are known from two readings of the same run
  have adds := draws.triple others (Registry.make_grows (standard_draws plain)) (List.nil_subset _)
  refine Triple.weaken ((follow_triple carries_expanding ensures).both adds) ?_ ?_ ?_
  · exact fun w stock => ⟨trivial, stock⟩
  · exact fun a w h => h
  · exact fun f w h => h.1

theorem expansion?_triple (denotes : DenoteAll Φ ρ lowered o.signature.operands values)
    (below : ∀ m ∈ lowered, Node.Below given m)
    (lawful : o = .fromHomogeneous → Φ → IsFieldArithmetic K) (high : ¬ IsPlain o.signature.name) :
    Triple (fun w => Stock IsPlain given others w.nextId)
      ((Registry.standard : Registry K).expansion? o.signature lowered)
      (fun answer w => ∃ hook n, answer = some (hook, n) ∧
        Denotes Φ ρ n o.signature.result (o.value values) ∧
          Stock IsPlain (n :: given) others w.nextId) never := by
  rw [Registry.expansion?, o.hooks_eq]
  rcases o.hooks_of_not_isPlain (K := K) high with ⟨noReplace, expand, hook⟩ | same
  · -- a transform, whose operands are lowered already
    rw [noReplace, hook]
    refine (followed_triple (ensures_expand o denotes hook) (draws_expand o below hook)).bind ?_
    intro answer w hs
    rcases hs with ⟨⟨n, rfl, hn⟩, now, sub, ⟨k, same, drawn⟩, stock⟩
    obtain rfl := Option.some.inj same
    exact ⟨"expand", n, rfl, hn, (stock.cons_of_below drawn).of_subset
      (List.cons_subset_cons n sub)⟩
  · -- the way back from homogeneous coordinates
    have hook : (o.definition : Definition K).hooks.replace =
        (fromHomogeneous : Definition K).hooks.replace := by
      rw [same]
      rfl
    rcases Option.isSome_iff_exists.1 (show (fromHomogeneous : Definition K).hooks.replace.isSome from
      rfl) with ⟨replace, replaces⟩
    rw [replaces] at hook
    rw [hook]
    refine (followed_triple (ensures_replace o (lawful same) denotes hook)
      (draws_replace o below hook)).bind ?_
    intro n w hs
    rcases hs with ⟨hn, now, sub, drawn, stock⟩
    exact ⟨"replace", n, rfl, hn, (stock.cons_of_below drawn).of_subset
      (List.cons_subset_cons n sub)⟩

theorem checkedExpansion?_triple (denotes : DenoteAll Φ ρ lowered o.signature.operands values)
    (below : ∀ m ∈ lowered, Node.Below given m)
    (lawful : o = .fromHomogeneous → Φ → IsFieldArithmetic K) :
    Triple (fun w => Stock IsPlain given others w.nextId)
      ((Registry.standard : Registry K).checkedExpansion? o.signature lowered)
      (fun n? w => Expanded Φ ρ o values given others w.nextId n?) never := by
  rw [Registry.checkedExpansion?]
  by_cases plain : IsPlain o.signature.name
  · rcases o.hooks_of_isPlain (K := K) plain with ⟨noReplace, noExpand⟩
    rw [Registry.expansion?, o.hooks_eq, noReplace, noExpand]
    exact fun w stock => ⟨plain, stock⟩
  · refine (expansion?_triple denotes below lawful plain).bind ?_
    intro answer w hs
    rcases hs with ⟨hook, n, rfl, hn, stock⟩
    dsimp only
    -- the check of the shape is passed
    rw [if_neg (not_not_intro hn.shape)]
    exact ⟨plain, hn, stock⟩

/-! ## The invariant -/

/-- A lowered form, among or below the given nodes, stands for the value of what was lowered. -/
structure LoweredTo (Φ : Prop) (ρ : Assignment K) (given : List (Node K)) (n m : Node K) :
    Prop where
  below : Node.Below given m
  denotes : Denotes Φ ρ m n.shape (n.value Standard.meaning ρ)

/-- Lowered forms as the pass knows of them; a form is its own lowered form. -/
def loweredTo (Φ : Prop) (ρ : Assignment K) : FormRelation K where
  holds := LoweredTo Φ ρ
  below h := h.below
  mono sub h := ⟨h.below.mono sub, h.denotes⟩
  self h := ⟨h.below, .of_typed h.denotes.typed h.denotes.fits⟩

/-- Lowered forms are around and made of plain operators, and whatever is remembered is true. -/
abbrev Lowering (Φ : Prop) (ρ : Assignment K) (given others : List (Node K))
    (s : Workspace K × Memo K) : Prop :=
  Recalls (loweredTo Φ ρ) IsPlain given others s

/-- The lowered forms of operands stand for their values. -/
theorem denotes_lowered (h : List.Forall₂ (LoweredTo Φ ρ given) operands lowered) :
    DenoteAll Φ ρ lowered (operands.map Node.shape)
      (operands.map (Node.value Standard.meaning ρ)) := by
  induction h with
  | nil => exact .nil
  | cons first _ ih => exact .cons first.denotes ih

/-! ## The pass -/

variable {again : Node K → Pass K (Node K)}

/-- An application over lowered operands is expanded, kept as it is or made anew. -/
theorem rewriting_triple {id : NodeId}
    (lowers : List.Forall₂ (LoweredTo Φ ρ given) operands lowered)
    (shapes : operands.map Node.shape = o.signature.operands)
    (below : Node.Below (given ++ others) (.application id o.signature operands))
    (lawful : o = .fromHomogeneous → Φ → IsFieldArithmetic K)
    (nested : ¬ IsPlain o.signature.name →
      ∀ m, Typed m → (Φ → ρ.Fits m) → Primitive m →
        Lowers (loweredTo Φ ρ) IsPlain [] others never again m) :
    Triple (Lowering Φ ρ given others)
      ((Registry.standard : Registry K).rewrite again id o.signature operands lowered)
      (fun m s => ∃ more, given ⊆ more ∧
        LoweredTo Φ ρ more (.application id o.signature operands) m ∧
          Lowering Φ ρ more others s) never := by
  have denotes := denotes_lowered lowers
  rw [shapes] at denotes
  let values := operands.map (Node.value Standard.meaning ρ)
  have value : (Node.application id o.signature operands).value Standard.meaning ρ =
      o.value values := Node.value_application Standard.meaning ρ id o.signature operands
  let answer (n? : Option (Node K)) : Prop :=
    (n? = none ↔ IsPlain o.signature.name) ∧
      ∀ n ∈ n?, Denotes Φ ρ n o.signature.result (o.value values) ∧ Primitive n
  have belowLowered := FormRelation.forall_below (F := loweredTo Φ ρ) lowers
  refine rewrite_triple (F := loweredTo Φ ρ) answer lowers below (List.nil_subset given)
    (fun memo => (checkedExpansion?_triple denotes belowLowered lawful).weaken
      (fun w h => h.stock) ?_ fun _ _ h => h) (fun answer => answer.1.1 rfl) ?_ ?_ ?_
  · intro n? w expanded
    cases n? with
    | none => exact ⟨⟨iff_of_true rfl expanded.1, offered_none⟩, expanded.2⟩
    | some n =>
        rcases expanded with ⟨high, hn, stock⟩
        refine ⟨⟨iff_of_false (Option.some_ne_none n) high, offered_some ?_⟩, stock⟩
        exact ⟨hn, stock.only n List.mem_cons_self⟩
  · -- over the lowered operands the application has the value that it had
    intro _ i more _ here
    exact ⟨here, (Denotes.application o i denotes).of_eq fun _ => value.symm⟩
  · rintro n ⟨high, offered⟩
    rcases offered n rfl with ⟨hn, primitive⟩
    exact nested (fun plain => Option.some_ne_none n (high.2 plain)) n hn.typed hn.fits primitive
  · -- the expansion is lowered once more, and the result is compared with it
    rintro n m more ⟨_, offered⟩ form
    have hn := (offered n rfl).1
    refine ⟨form.below, (hn.shape ▸ form.denotes).of_eq fun hΦ => ?_⟩
    rw [hn.value hΦ, value]

theorem lowers_expression (typed : Typed n) (fits : Φ → ρ.Fits n)
    (law : Φ → Cartesian n ∨ IsFieldArithmetic K)
    (nested : Primitive n ∨ ∀ m, Typed m → (Φ → ρ.Fits m) → Primitive m →
      Lowers (loweredTo Φ ρ) IsPlain [] others never again m) :
    Lowers (loweredTo Φ ρ) IsPlain [] others never
      ((Registry.standard : Registry K).lowerWith again) n := by
  let assumed (n : Node K) : Prop :=
    (Typed n ∧ (Φ → ρ.Fits n)) ∧ (Φ → Cartesian n ∨ IsFieldArithmetic K) ∧
      (Primitive n ∨ ∀ m, Typed m → (Φ → ρ.Fits m) → Primitive m →
        Lowers (loweredTo Φ ρ) IsPlain [] others never again m)
  refine lowerWith_triple (P := assumed) ?_ ?_ ?_ ⟨⟨typed, fits⟩, law, nested⟩
  · -- whatever is assumed passes to the operands
    intro n ⟨⟨typed, fits⟩, law, nested⟩ m hm
    have operand : n.Reaches m := .of_mem_operands hm
    exact ⟨⟨typed.of_reaches operand, fun hΦ => (fits hΦ).of_reaches operand⟩,
      fun hΦ => (law hΦ).imp_left fun h => h.of_reaches operand,
      nested.imp_left fun h => h.of_reaches operand⟩
  · intro n ⟨⟨typed, fits⟩, _⟩ plain
    exact lowers_itself (Node.appliesOnly_of_plain plain) fun _ here => ⟨here, .of_typed typed fits⟩
  · intro id s operands lowered given ⟨⟨typed, fits⟩, law, nested⟩ _ below forms
    rcases Typed.operator typed with ⟨o, rfl, shapes, _⟩
    have lawful (same : o = .fromHomogeneous) (hΦ : Φ) : IsFieldArithmetic K := by
      refine (law hΦ).resolve_left ?_
      intro cartesian
      exact (Node.appliesOnly_application.1 cartesian).1 (same ▸ rfl)
    refine rewriting_triple forms shapes below lawful fun high => ?_
    -- a graph of plain operators has nothing to expand
    refine nested.resolve_left ?_
    intro primitive
    exact high (Node.appliesOnly_application.1 primitive).1

/-- Where nothing is expanded, the depth does not matter. -/
theorem lowers_primitive (depth : Nat) (typed : Typed n) (fits : Φ → ρ.Fits n)
    (primitive : Primitive n) :
    Lowers (loweredTo Φ ρ) IsPlain [] others never
      ((Registry.standard : Registry K).lowerWithin (depth + 1)) n :=
  lowers_expression typed fits (fun _ => .inl primitive.cartesian) (.inl primitive)

/-- What lowering comes to is made of plain operators and coherent with the nodes that are around. -/
structure LoweredAmong (others : List (Node K)) (m : Node K) (next : NodeId) : Prop where
  primitive : Primitive m
  coherent : Node.Coherent (m :: others)
  older : ∀ n ∈ m :: others, n.Older next

/-- An expansion consists of plain operators, so expansions are not nested further than is allowed. -/
theorem lowers_typed (typed : Typed n) (fits : Φ → ρ.Fits n)
    (law : Φ → Cartesian n ∨ IsFieldArithmetic K) :
    Lowers (loweredTo Φ ρ) IsPlain [] others never ((Registry.standard : Registry K).lowerNext) n :=
  lowers_expression typed fits law
    (.inr fun _ typed fits primitive => lowers_primitive (nestingLimit - 2) typed fits primitive)

theorem lower_triple {e : Node K} (typed : Typed e) (coherent : Node.Coherent others)
    (among : e ∈ others) :
    let Φ := ρ.Fits e ∧ (Cartesian e ∨ IsFieldArithmetic K)
    Triple (fun w => ∀ n ∈ others, n.Older w.nextId) ((Registry.standard : Registry K).lower e)
      (fun m w => Denotes Φ ρ m e.shape (e.value Standard.meaning ρ) ∧
        LoweredAmong others m w.nextId) never := by
  intro Φ
  have lowers : Lowers (loweredTo Φ ρ) IsPlain [] others never
      ((Registry.standard : Registry K).lowerNext) e :=
    lowers_typed typed (fun hΦ => hΦ.1) fun hΦ => hΦ.2
  have below : Node.Below ([] ++ others) e := .of_mem among
  refine Triple.starting ((lowers [] (List.nil_subset _) below).weaken ?_ ?_ fun _ _ h => h)
  · -- nothing is around yet but the expressions
    rintro ⟨w, memo⟩ ⟨older, rfl⟩
    exact .empty ⟨coherent, older, by simp⟩
  · rintro m ⟨w, memo⟩ ⟨more, _, lowered, h⟩
    have stock := (h.stock.cons_of_below lowered.below).of_subset
      (List.cons_subset_cons m (List.nil_subset more))
    exact ⟨lowered.denotes, stock.only m List.mem_cons_self, stock.coherent, stock.older⟩

/-! ## The value -/

/-- Lowering comes to a well-typed expression of the same shape and value: in any arithmetic, if the
way back from homogeneous coordinates is not applied, and else over a field. -/
theorem lower_keeps_value {e : Node K} (typed : e.WellTyped (Registry.standard : Registry K).Knows)
    (coherent : Node.Coherent [e]) (w : Workspace K) (older : e.Older w.nextId) :
    ∃ m w', ((Registry.standard : Registry K).lower e).runIn w = (.ok m, w') ∧
      m.shape = e.shape ∧ m.WellTyped (Registry.standard : Registry K).Knows ∧
      (Cartesian e ∨ IsFieldArithmetic K → ∀ ρ : Assignment K, ρ.Fits e →
        ρ.Fits m ∧ m.value Standard.meaning ρ = e.value Standard.meaning ρ) := by
  have some_assignment : Assignment K := fun _ => .zero .scalar
  rcases Triple.runIn_eq_ok_forall some_assignment
    (fun ρ => lower_triple (ρ := ρ) typed coherent (List.mem_singleton_self e))
    (List.forall_mem_singleton.2 older) with ⟨m, w', run, lowered⟩
  have denotes (ρ : Assignment K) := (lowered ρ).1
  have result := denotes some_assignment
  refine ⟨m, w', run, result.shape, result.typed, fun law ρ fits => ?_⟩
  exact ⟨(denotes ρ).fits ⟨fits, law⟩, (denotes ρ).value ⟨fits, law⟩⟩

/-- A rotation of the plane keeps its value in double precision. -/
theorem lower_keeps_value_rotation :
    let a : Node Float := .leaf 4 "a" .scalar
    let rotation : Node Float := .application 5 ⟨.mat33, "mat33RotationZ", [.scalar]⟩ [a]
    ∃ m w', ((Registry.standard : Registry Float).lower rotation).runIn ⟨6, #[]⟩ = (.ok m, w') ∧
      ∀ ρ : Assignment Float, ρ.Fits rotation →
        m.value Standard.meaning ρ = AxisRotation.planar.value ((ρ 4).component 0) := by
  intro a rotation
  have planar : axisRotations[0]? = some AxisRotation.planar := rfl
  have typed : rotation.WellTyped (Registry.standard : Registry Float).Knows :=
    typed_application (.axisRotation 0 .planar planar) 5 rfl
      (List.forall_mem_singleton.2 (.leaf 4 "a" .scalar))
  have closed : ∀ n ∈ [rotation, a], ∀ m ∈ n.operands, m ∈ [rotation, a] := by
    simp [rotation, a]
  have coherent : Node.Coherent [rotation, a] := .of_closed closed (by simp [rotation, a])
  have older : rotation.Older 6 := by
    intro x below
    have known := below.mem_of_closed closed List.mem_cons_self
    simp only [List.mem_cons, List.not_mem_nil, or_false] at known
    rcases known with rfl | rfl
    · decide
    · decide
  have cartesian : Cartesian rotation :=
    Node.appliesOnly_application.2
      ⟨by decide, List.forall_mem_singleton.2 (Node.appliesOnly_of_plain rfl)⟩
  rcases lower_keeps_value typed (coherent.of_below fun n hn => .of_mem (by simp_all)) ⟨6, #[]⟩ older
    with ⟨m, w', run, _, _, keeps⟩
  refine ⟨m, w', run, fun ρ fits => ?_⟩
  calc m.value Standard.meaning ρ = rotation.value Standard.meaning ρ :=
        (keeps (.inl cartesian) ρ fits).2
    _ = (Operator.axisRotation 0 .planar planar).value [ρ 4] :=
        Node.value_application Standard.meaning ρ 5 _ [a]
    _ = AxisRotation.planar.value ((ρ 4).component 0) :=
        Operator.value_axisRotation _ 0 .planar planar

end Standard

end SymbolicLinalg
