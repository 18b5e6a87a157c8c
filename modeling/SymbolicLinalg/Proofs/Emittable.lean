import SymbolicLinalg.Proofs.Emission
import SymbolicLinalg.Proofs.Lowered
import SymbolicLinalg.Proofs.Thrift

/-!
# Emittable — every standard expression can be emitted

Lowering a well-typed expression over the standard operators comes to an expression of operators that
are not lowered any further.  Each of them has a renderer for every target, so the lowered form can be
rendered; and since forms that were lowered in one workspace are coherent, they can be emitted
together, in any kernel.  Derivatives and gradients are such expressions again.

* `emittable`: plain forms that are coherent can be rendered and emitted;
* `lower_emittable`: lowering comes to such forms.
-/

namespace SymbolicLinalg

namespace Standard

variable {K : Type} [Arithmetic K] [Numeral K] {m : Node K} {es ms others : List (Node K)}

theorem Operator.renders_of_isPlain {o : Operator} (plain : IsPlain o.signature.name)
    (target : Target) : (Registry.standard : Registry K).Renders target o.signature := by
  rw [Registry.Renders, o.hooks_eq]
  cases o with
  | axisRotation id r h => exact absurd plain (AxisRotation.not_isPlain h)
  | shift | axisScaling | fromHomogeneous => exact absurd (by decide) plain
  | _ =>
      cases target with
      | c | js => rfl

/-- No operator in the graph has a hook that lowers it. -/
def Lowest (m : Node K) : Prop :=
  m.AppliesOnly fun s => ((Registry.standard : Registry K).hooks s).replace = none ∧
    ((Registry.standard : Registry K).hooks s).expand = none

theorem Primitive.lowest (primitive : Primitive m) (typed : Typed m) : Lowest m := by
  intro id s operands below
  rcases Typed.operator (typed.of_reaches below) with ⟨o, rfl, _⟩
  rw [o.hooks_eq]
  exact Operator.hooks_of_isPlain (primitive id _ operands below)

theorem Primitive.renders (primitive : Primitive m) (typed : Typed m) (target : Target) :
    m.AppliesOnly ((Registry.standard : Registry K).Renders target) := by
  intro id s operands below
  rcases Typed.operator (typed.of_reaches below) with ⟨o, rfl, _⟩
  exact Operator.renders_of_isPlain (primitive id _ operands below) target

/-! ## Lowered forms -/

/-- Lowered forms of expressions, each of which can be rendered, and which can be emitted in any
selection and any order. -/
structure Emittable (es ms : List (Node K)) : Prop where
  forms : List.Forall₂ (fun e m => m.shape = e.shape ∧ Primitive m ∧ Lowest m) es ms
  render : ∀ m ∈ ms, ∀ target, ∃ text, (Registry.standard : Registry K).render target m = .ok text
  emit : ∀ k : Kernel K, k.roots ⊆ ms → ∀ target,
    ∃ e, k.emit (Registry.standard : Registry K) target = (.ok (), e)

/-- A lowered form of an expression, of its shape and made of plain operators. -/
structure PlainForm (e m : Node K) : Prop where
  shape : m.shape = e.shape
  typed : Typed m
  primitive : Primitive m

theorem plain_of_forms (forms : List.Forall₂ PlainForm es ms) :
    ∀ m ∈ ms, Typed m ∧ Primitive m := by
  induction forms with
  | nil => exact fun m hm => absurd hm List.not_mem_nil
  | cons first _ ih => exact List.forall_mem_cons.2 ⟨⟨first.typed, first.primitive⟩, ih⟩

theorem emittable (forms : List.Forall₂ PlainForm es ms) (coherent : Node.Coherent ms) :
    Emittable es ms := by
  have plain := plain_of_forms forms
  refine ⟨forms.imp fun e m form =>
    ⟨form.shape, form.primitive, form.primitive.lowest form.typed⟩, ?_, ?_⟩
  · intro m hm target
    rcases plain m hm with ⟨typed, primitive⟩
    have alone : Node.Coherent [m] := coherent.of_subset (by simpa using hm)
    exact ⟨_, render_eq_code alone (primitive.renders typed target)⟩
  · intro k sub target
    refine Kernel.emit_eq_ok (coherent.of_subset sub) fun root hroot => ?_
    rcases plain root (sub hroot) with ⟨typed, primitive⟩
    exact primitive.renders typed target

/-! ## Lowering -/

/-- Lowering adds a form of the expression to the nodes that are around. -/
theorem lower_plainForm {e : Node K} (typed : Typed e) (coherent : Node.Coherent others)
    (among : e ∈ others) :
    Triple (fun w => ∀ n ∈ others, n.Older w.nextId) ((Registry.standard : Registry K).lower e)
      (fun m w => PlainForm e m ∧ Node.Coherent (m :: others) ∧
        ∀ n ∈ m :: others, n.Older w.nextId) never := by
  have some_assignment : Assignment K := fun _ => .zero .scalar
  refine (lower_triple (ρ := some_assignment) typed coherent among).relax ?_
  rintro m w ⟨denotes, lowered⟩
  exact ⟨⟨denotes.shape, denotes.typed, lowered.primitive⟩, lowered.coherent, lowered.older⟩

/-- Expressions that are lowered one after the other have coherent forms. -/
theorem lowerEach_plainForm (typed : ∀ e ∈ es, Typed e) (coherent : Node.Coherent others)
    (among : es ⊆ others) :
    Triple (fun w => ∀ n ∈ others, n.Older w.nextId)
      (es.mapM (Registry.standard : Registry K).lower)
      (fun ms _ => List.Forall₂ PlainForm es ms ∧ Node.Coherent (ms ++ others)) never := by
  induction es generalizing others with
  | nil => exact .value fun _ _ => ⟨.nil, coherent⟩
  | cons e rest ih =>
      rw [List.forall_mem_cons] at typed
      rw [List.cons_subset] at among
      rw [List.mapM_cons]
      refine (lower_plainForm typed.1 coherent among.1).bind fun m => ?_
      refine .assuming fun form => .assuming fun coherent => ?_
      refine (ih typed.2 coherent (List.subset_cons_of_subset m among.2)).bind fun ms => ?_
      refine .value fun _ ⟨forms, coherent⟩ => ⟨.cons form forms, ?_⟩
      exact coherent.of_subset List.perm_middle.symm.subset

/-- Expressions that are lowered in one pass have coherent forms. -/
theorem lowerAll_plainForm (typed : ∀ e ∈ es, Typed e) (coherent : Node.Coherent es) :
    Triple (fun w => ∀ e ∈ es, e.Older w.nextId) ((Registry.standard : Registry K).lowerAll es)
      (fun ms _ => List.Forall₂ PlainForm es ms ∧ Node.Coherent ms) never := by
  have some_assignment : Assignment K := fun _ => .zero .scalar
  have lowers : ∀ e ∈ es, Lowers (loweredTo False some_assignment) IsPlain [] es never
      ((Registry.standard : Registry K).lowerNext) e :=
    fun e he => lowers_typed (typed e he) False.elim False.elim
  refine Triple.starting ((lowersAll lowers (List.nil_subset []) fun e he => .of_mem he).weaken
    ?_ ?_ fun _ _ h => h)
  · rintro ⟨w, memo⟩ ⟨older, rfl⟩
    exact .empty ⟨coherent, older, by simp⟩
  · rintro ms ⟨w, memo⟩ ⟨more, _, forms, h⟩
    have below : ∀ m ∈ ms, Node.Below (more ++ es) m := fun m hm =>
      (FormRelation.forall_below (F := loweredTo False some_assignment) forms m hm).mono
        (List.subset_append_left more es)
    refine ⟨forms.imp fun e m lowered => ?_, h.stock.coherent.of_below below⟩
    exact ⟨lowered.denotes.shape, lowered.denotes.typed, h.stock.only_of_below lowered.below⟩

/-! ## Emission -/

/-- In the workspace the expressions are lowered, one by one or in a single pass, to forms that can be
emitted. -/
structure LowersEmittably (w : Workspace K) (es : List (Node K)) : Prop where
  alone : ∀ e ∈ es, ∃ m w', ((Registry.standard : Registry K).lower e).runIn w = (.ok m, w') ∧
    Emittable [e] [m]
  inTurn : ∃ ms w', (es.mapM (Registry.standard : Registry K).lower).runIn w = (.ok ms, w') ∧
    Emittable es ms
  together : ∃ ms w', ((Registry.standard : Registry K).lowerAll es).runIn w = (.ok ms, w') ∧
    Emittable es ms

theorem lowersEmittably {w : Workspace K}
    (around : Around (Registry.standard : Registry K) es w.nextId) : LowersEmittably w es := by
  rcases around with ⟨coherent, older, typed⟩
  refine ⟨fun e he => ?_, ?_, ?_⟩
  · rcases (lower_plainForm (typed e he) coherent he).runIn_eq_ok older with
      ⟨m, w', run, form, coherent, _⟩
    refine ⟨m, w', run, emittable (.cons form .nil) ?_⟩
    exact coherent.of_subset (by simp)
  · rcases (lowerEach_plainForm typed coherent (List.Subset.refl es)).runIn_eq_ok older with
      ⟨ms, w', run, forms, coherent⟩
    exact ⟨ms, w', run, emittable forms (coherent.of_subset (List.subset_append_left ms es))⟩
  · rcases (lowerAll_plainForm typed coherent).runIn_eq_ok older with
      ⟨ms, w', run, forms, coherent⟩
    exact ⟨ms, w', run, emittable forms coherent⟩

/-- Well-typed expressions over the standard operators have lowered forms that can be rendered and
emitted for every target.  The same goes for whatever is made of them, derivatives and gradients
included, if they may stand beside the generators of the rotations. -/
theorem lower_emittable (w : Workspace K)
    (around : Around (Registry.standard : Registry K) es w.nextId) :
    LowersEmittably w es ∧
      (Around (Registry.standard : Registry K) (generators K ++ es) w.nextId →
        ∀ w' es', (Registry.standard : Registry K).Issues w es w' es' → LowersEmittably w' es') := by
  refine ⟨lowersEmittably around, fun beside w' es' issues => lowersEmittably ?_⟩
  exact (issues.around standard_thrifty beside).of_subset (List.subset_append_right _ _)

/-- A rotation and a rotated point can be emitted together, and so can the rate at which the point
moves. -/
theorem lower_emittable_rotation :
    let a : Node Float := .leaf 4 "a" .scalar
    let p : Node Float := .leaf 5 "p" .vec4
    let rotation : Node Float := .application 6 ⟨.mat44, "mat44RotationX", [.scalar]⟩ [a]
    let moved : Node Float := .application 7 ⟨.vec4, "*", [.mat44, .vec4]⟩ [rotation, p]
    (∃ ms w', ([rotation, moved].mapM (Registry.standard : Registry Float).lower).runIn ⟨8, #[]⟩ =
      (.ok ms, w') ∧ Emittable [rotation, moved] ms) ∧
    ∀ rate w', ((Registry.standard : Registry Float).derivative moved a).runIn ⟨8, #[]⟩ =
      (.ok rate, w') → LowersEmittably w' [rate, rotation, moved] := by
  intro a p rotation moved
  have aboutX : axisRotations[1]? = some AxisRotation.aboutX := rfl
  have typedRotation : Typed rotation :=
    typed_application (.axisRotation 1 .aboutX aboutX) 6 rfl
      (List.forall_mem_singleton.2 (.leaf 4 "a" .scalar))
  have typedMoved : Typed moved :=
    typed_application (.columnProduct .mat44 .vec4 (by simp [IsColumn])) 7 rfl
      (List.forall_mem_cons.2 ⟨typedRotation, List.forall_mem_singleton.2 (.leaf 5 "p" .vec4)⟩)
  let nodes := generators Float ++ [rotation, moved] ++ [p, a]
  have closed : ∀ n ∈ nodes, ∀ m ∈ n.operands, m ∈ nodes := by
    simp [nodes, generators, axisRotations, moved, rotation, a, p]
  have distinct : (nodes.map Node.id).Nodup := by
    simp [nodes, generators, axisRotations, moved, rotation, a, p]
  have early : ∀ n ∈ nodes, n.id < 8 := by
    simp [nodes, generators, axisRotations, moved, rotation, a, p]
  have among : generators Float ++ [rotation, moved] ⊆ nodes := List.subset_append_left _ [p, a]
  have beside : Around (Registry.standard : Registry Float)
      (generators Float ++ [rotation, moved]) 8 :=
    { coherent := (Node.Coherent.of_closed closed distinct).of_subset among
      older := fun e he x below => early x (below.mem_of_closed closed (among he))
      typed := List.forall_mem_append.2 ⟨typed_generators,
        List.forall_mem_cons.2 ⟨typedRotation, List.forall_mem_singleton.2 typedMoved⟩⟩ }
  have start := beside.of_subset (List.subset_append_right (generators Float) [rotation, moved])
  rcases lower_emittable ⟨8, #[]⟩ start with ⟨lowers, later⟩
  refine ⟨lowers.inTurn, fun rate w' run => later beside w' _ (.derivative .start ?_ run)⟩
  exact .of_mem (by simp)

end Standard

end SymbolicLinalg
