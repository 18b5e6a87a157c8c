import SymbolicLinalg.Proofs.Hooks
import SymbolicLinalg.Proofs.Issue
import SymbolicLinalg.Proofs.Simplification

/-!
# Thrift — the standard hooks waste nothing

The hooks of the standard operators draw on what they are given and on the generators of the axis
rotations, and the constants they make are complete.  Derivatives and gradients of standard
expressions are therefore standard expressions again.
-/

namespace SymbolicLinalg

variable {K ρ σ α β γ : Type}

namespace Node

variable {given : List (Node K)} {n m : Node K}

@[simp] theorem reaches_self : n.Reaches n :=
  .refl n

@[simp] theorem below_cons : Below (n :: given) m ↔ n.Reaches m ∨ Below given m := by
  simp [Below]

end Node

/-! ## Recipes step by step -/

variable [Dialogue K ρ σ] {given operands : List (Node K)}

namespace Recipe

variable {post : List (Node K) → α → Prop}

theorem thrift_done {a : α} : (Recipe.done a : Recipe K ρ σ α).Thrift given post ↔ post given a :=
  ⟨fun h => h.draws, fun h => ⟨h, trivial⟩⟩

theorem thrift_make {c : Construction K} {next : Node K → Recipe K ρ σ α} :
    (Recipe.make c next).Thrift given post ↔
      (c.Draws Registry.anyName given ∧ c.Complete) ∧ ∀ n, (next n).Thrift (n :: given) post :=
  ⟨fun h => ⟨⟨h.draws.1, h.complete.1⟩, fun n => ⟨h.draws.2 n, h.complete.2 n⟩⟩,
    fun h => ⟨⟨h.1.1, fun n => (h.2 n).draws⟩, ⟨h.1.2, fun n => (h.2 n).complete⟩⟩⟩

theorem thrift_ask {q : ρ} {next : σ → Recipe K ρ σ α} :
    (Recipe.ask q next).Thrift given post ↔
      (∀ n ∈ Dialogue.shows σ q, Node.Below given n) ∧
        ∀ answer, (next answer).Thrift (Dialogue.hands ρ answer ++ given) post :=
  ⟨fun h => ⟨h.draws.1, fun answer => ⟨h.draws.2 answer, h.complete answer⟩⟩,
    fun h => ⟨⟨h.1, fun answer => (h.2 answer).draws⟩, fun answer => (h.2 answer).complete⟩⟩

namespace Thrift

theorem bind {recipe : Recipe K ρ σ β} {next : β → Recipe K ρ σ α}
    {mid : List (Node K) → β → Prop} (h : recipe.Thrift given mid)
    (k : ∀ now b, given ⊆ now → mid now b → (next b).Thrift now post) :
    (recipe >>= next).Thrift given post := by
  induction recipe generalizing given with
  | done b => exact k given b (List.Subset.refl given) h.draws
  | refuse e => exact ⟨trivial, trivial⟩
  | make c rest ih =>
      rw [thrift_make] at h
      change (Recipe.make c fun n => rest n >>= next).Thrift given post
      rw [thrift_make]
      exact ⟨h.1, fun n => ih n (h.2 n) fun now b sub =>
        k now b (List.subset_of_cons_subset sub)⟩
  | ask q rest ih =>
      rw [thrift_ask] at h
      change (Recipe.ask q fun answer => rest answer >>= next).Thrift given post
      rw [thrift_ask]
      exact ⟨h.1, fun answer => ih answer (h.2 answer) fun now b sub =>
        k now b (List.append_subset.1 sub).2⟩

/-- A recipe for each element of a list. -/
theorem each {P : List (Node K) → γ → Prop}
    (mono : ∀ {now later : List (Node K)} {c : γ}, P now c → now ⊆ later → P later c) {l : List β}
    {f : β → Recipe K ρ σ γ} (h : ∀ b ∈ l, ∀ now, given ⊆ now → (f b).Thrift now P) :
    (Recipe.each f l).Thrift given fun now cs => ∀ c ∈ cs, P now c := by
  induction l generalizing given with
  | nil => exact ⟨fun c hc => absurd hc List.not_mem_nil, trivial⟩
  | cons b rest ih =>
      have first := h b List.mem_cons_self given (List.Subset.refl given)
      refine first.bind fun now c sub hc => ?_
      have others := ih fun d hd later sub' =>
        h d (List.mem_cons_of_mem b hd) later (List.Subset.trans sub sub')
      refine others.bind fun later cs sub' hcs => thrift_done.2 ?_
      exact List.forall_mem_cons.2 ⟨mono hc sub', hcs⟩

end Thrift

/-! ### The steps of hooks -/

section

variable {next : Node K → Recipe K ρ σ α}

@[simp] theorem thrift_apply_bind {name : String} :
    (Recipe.apply name operands >>= next).Thrift given post ↔
      (∀ m ∈ operands, Node.Below given m) ∧ ∀ n, (next n).Thrift (n :: given) post :=
  thrift_make.trans (and_congr_left' ⟨fun h => h.1.2, fun h => ⟨⟨trivial, h⟩, trivial⟩⟩)

@[simp] theorem thrift_constant_bind {v : Literal K} :
    (Recipe.constant v >>= next).Thrift given post ↔
      v.Complete ∧ ∀ n, (next n).Thrift (n :: given) post :=
  thrift_make.trans (and_congr_left' ⟨fun h => h.2, fun h => ⟨trivial, h⟩⟩)

/-- An application at the end hands the new node out. -/
@[simp] theorem thrift_apply {name : String} :
    (Recipe.apply name operands : Recipe K ρ σ (Node K)).Thrift given Node.Below ↔
      ∀ m ∈ operands, Node.Below given m := by
  refine thrift_make.trans ⟨fun h => h.1.1.2, fun h => ⟨⟨⟨trivial, h⟩, trivial⟩, fun n => ?_⟩⟩
  exact thrift_done.2 (.of_mem List.mem_cons_self)

theorem thrift_constant {v : Literal K} (complete : v.Complete) :
    (Recipe.constant v : Recipe K ρ σ (Node K)).Thrift given Node.Below :=
  thrift_make.2 ⟨⟨trivial, complete⟩, fun _ => thrift_done.2 (.of_mem List.mem_cons_self)⟩

end

end Recipe

namespace Standard

@[simp] theorem thrift_derive_bind {a : Node K} {next : Node K → Recipe K (Node K) (Node K) α}
    {post : List (Node K) → α → Prop} :
    (derive a >>= next).Thrift given post ↔
      Node.Below given a ∧ ∀ d, (next d).Thrift (d :: given) post :=
  Recipe.thrift_ask.trans (and_congr_left' List.forall_mem_singleton)

@[simp] theorem thrift_contribute_bind {a g : Node K}
    {next : Unit → Recipe K (Contribution K) Unit α} {post : List (Node K) → α → Prop} :
    (contribute a g >>= next).Thrift given post ↔
      (Node.Below given a ∧ Node.Below given g) ∧ (next ()).Thrift given post :=
  Recipe.thrift_ask.trans (and_congr (by simp [Dialogue.shows]) ⟨fun h => h (), fun h _ => h⟩)

@[simp] theorem thrift_contribute {a g : Node K} :
    (contribute a g).Thrift given (fun _ _ => True) ↔ Node.Below given a ∧ Node.Below given g :=
  Recipe.thrift_ask.trans ⟨fun h => by simpa [Dialogue.shows] using h.1,
    fun h => ⟨by simpa [Dialogue.shows] using h, fun _ => Recipe.thrift_done.2 trivial⟩⟩

theorem thrift_onOne {name : String} {f : Node K → Recipe K ρ σ α}
    {post : List (Node K) → α → Prop} (below : ∀ m ∈ operands, Node.Below given m)
    (h : ∀ a, Node.Below given a → (f a).Thrift given post) :
    (onOne name f operands).Thrift given post :=
  onOne_cases (P := Recipe.Thrift given post) (fun _ => ⟨trivial, trivial⟩) below h

theorem thrift_onTwo {name : String} {f : Node K → Node K → Recipe K ρ σ α}
    {post : List (Node K) → α → Prop} (below : ∀ m ∈ operands, Node.Below given m)
    (h : ∀ a b, Node.Below given a → Node.Below given b → (f a b).Thrift given post) :
    (onTwo name f operands).Thrift given post :=
  onTwo_cases (P := Recipe.Thrift given post) (fun _ => ⟨trivial, trivial⟩) below h

theorem thrift_fillIn {nodes : List (Node K)} (below : ∀ m ∈ nodes, Node.Below given m)
    (positions : List Nat) (rest : Nat → K) (l : List Nat) :
    (fillIn positions nodes rest l : Recipe K ρ σ (List (Node K))).Thrift given
      fun now ns => ∀ n ∈ ns, Node.Below now n := by
  refine .each (fun h sub => h.mono sub) fun i _ now sub => ?_
  split
  · rename_i n found
    rcases Option.bind_eq_some_iff.1 found with ⟨k, _, found⟩
    exact Recipe.thrift_done.2 ((below n (List.mem_of_getElem? found)).mono sub)
  · exact Recipe.thrift_constant (Literal.hasShape_scalar _).complete

/-- Nodes are put together from derivatives of the operands. -/
theorem thrift_deriveEach (below : ∀ m ∈ operands, Node.Below given m)
    {next : List (Node K) → Recipe K (Node K) (Node K) (Node K)}
    (h : ∀ now ds, (∀ d ∈ ds, Node.Below now d) → (next ds).Thrift now Node.Below) :
    (Recipe.each derive operands >>= next).Thrift given Node.Below := by
  have derivatives : (Recipe.each derive operands).Thrift given
      fun now ds => ∀ d ∈ ds, Node.Below now d := by
    refine .each (fun h sub => h.mono sub) fun m hm now sub => Recipe.thrift_ask.2 ?_
    refine ⟨List.forall_mem_singleton.2 ((below m hm).mono sub), fun d => Recipe.thrift_done.2 ?_⟩
    exact .of_mem List.mem_cons_self
  exact derivatives.bind fun now ds _ hds => h now ds hds

/-- Parts of a gradient go to nodes that are given. -/
theorem thrift_zipped {g : Node K} (upstream : Node.Below given g) {places : List (Node K × Nat)}
    (below : ∀ p ∈ places, Node.Below given p.1) :
    (do
      let _ ← Recipe.each
        (fun (p : Node K × Nat) => do
          let part ← .select g p.2
          contribute p.1 part)
        places
      return : Recipe K (Contribution K) Unit Unit).Thrift given fun _ _ => True := by
  have parts : (Recipe.each (fun (p : Node K × Nat) => do
      let part ← .select g p.2
      contribute p.1 part) places : Recipe K (Contribution K) Unit (List Unit)).Thrift given
        fun _ us => ∀ u ∈ us, True := by
    refine .each (fun _ _ => trivial) fun p hp now sub => ?_
    simp [Recipe.select, upstream.mono sub, (below p hp).mono sub]
  exact parts.bind fun _ _ _ _ => Recipe.thrift_done.2 trivial

section

variable [Arithmetic K]

theorem thrift_negated {s : Shape} {a : Node K} (below : Node.Below given a) :
    (negated s a : Recipe K ρ σ (Node K)).Thrift given Node.Below := by
  rw [negated]
  split
  · simp [Recipe.neg, below]
  · simp [Recipe.scalar, Recipe.mul, below, (Literal.hasShape_scalar _).complete]

/-- The nodes that the hooks of the axis rotations share. -/
def generators (K : Type) [Arithmetic K] : List (Node K) :=
  axisRotations.mapIdx fun id r => .constant id r.generator

theorem generator_mem {id : NodeId} {r : AxisRotation} (h : axisRotations[id]? = some r) :
    Node.constant id r.generator ∈ generators K := by
  rcases List.getElem?_eq_some_iff.1 h with ⟨lt, rfl⟩
  exact List.mem_mapIdx.2 ⟨id, lt, rfl⟩

/-! ## Differentiation -/

variable [Numeral K]

theorem Operator.deriv_thrift (o : Operator)
    {deriv : Node K → List (Node K) → Recipe K (Node K) (Node K) (Node K)}
    (hook : (o.definition : Definition K).hooks.deriv = some deriv) {wrt : Node K}
    (held : generators K ⊆ given) (below : ∀ m ∈ operands, Node.Below given m) :
    (deriv wrt operands).Thrift given Node.Below := by
  cases o with
  | addition | subtraction =>
      cases hook
      refine thrift_onTwo below fun a b ha hb => ?_
      simp [Recipe.add, Recipe.sub, ha, hb]
  | negation | transposition | selector =>
      cases hook
      refine thrift_onOne below fun a ha => ?_
      simp [Recipe.neg, Recipe.trans, Recipe.select, ha]
  | cosine | sine =>
      cases hook
      refine thrift_onOne below fun a ha => ?_
      simp [Recipe.cos, Recipe.sin, Recipe.neg, Recipe.mul, ha]
  | multiplication | scaling | matrixProduct | columnProduct =>
      cases hook
      refine thrift_onTwo below fun a b ha hb => ?_
      simp [productRule, Recipe.mul, Recipe.add, ha, hb]
  | division =>
      cases hook
      refine thrift_onTwo below fun a b ha hb => ?_
      simp [Recipe.mul, Recipe.sub, Recipe.div, ha, hb]
  | innerProduct | outerProduct =>
      cases hook
      refine thrift_onTwo below fun a b ha hb => ?_
      simp [Recipe.dot, Recipe.outer, Recipe.add, ha, hb]
  | constructor s =>
      cases hook
      exact thrift_deriveEach below fun now ds hds => Recipe.thrift_apply.2 hds
  | shift | axisScaling =>
      cases hook
      refine thrift_deriveEach below fun now ds hds => (thrift_fillIn hds _ _ _).bind ?_
      exact fun later ns _ hns => Recipe.thrift_apply.2 hns
  | axisRotation id r h =>
      cases hook
      have generator : Node.Below given (.constant id r.generator) := .of_mem (held (generator_mem h))
      refine thrift_onOne below fun a ha => ?_
      simp [Recipe.mul, ha, generator]
  | axisAngleRotation | fromHomogeneous => exact absurd hook nofun

theorem Operator.gradient_thrift (o : Operator)
    {gradient : Node K → List (Node K) → Recipe K (Contribution K) Unit Unit}
    (hook : (o.definition : Definition K).hooks.gradient = some gradient) {g : Node K}
    (held : generators K ⊆ given) (below : ∀ m ∈ operands, Node.Below given m)
    (upstream : Node.Below given g) : (gradient g operands).Thrift given fun _ _ => True := by
  cases o with
  | addition =>
      cases hook
      refine thrift_onTwo below fun a b ha hb => ?_
      simp [ha, hb, upstream]
  | subtraction s =>
      cases hook
      refine thrift_onTwo below fun a b ha hb => (thrift_negated upstream).bind ?_
      intro now minus sub hminus
      simp [ha.mono sub, hb.mono sub, upstream.mono sub, hminus]
  | negation | transposition =>
      cases hook
      refine thrift_onOne below fun a ha => ?_
      simp [Recipe.neg, Recipe.trans, ha, upstream]
  | selector s h i lt =>
      cases hook
      refine thrift_onOne below fun a ha => ?_
      simp [Recipe.mul, ha, upstream, (Literal.hasShape_oneHot s i).complete]
  | cosine | sine =>
      cases hook
      refine thrift_onOne below fun a ha => ?_
      simp [Recipe.cos, Recipe.sin, Recipe.neg, Recipe.mul, ha, upstream]
  | multiplication | division =>
      cases hook
      refine thrift_onTwo below fun a b ha hb => ?_
      simp [Recipe.mul, Recipe.div, Recipe.neg, ha, hb, upstream]
  | scaling | innerProduct =>
      cases hook
      refine thrift_onTwo below fun a b ha hb => ?_
      simp [Recipe.dot, Recipe.mul, ha, hb, upstream]
  | matrixProduct | columnProduct | outerProduct =>
      cases hook
      refine thrift_onTwo below fun a b ha hb => ?_
      simp [Recipe.trans, Recipe.mul, Recipe.outer, ha, hb, upstream]
  | constructor s =>
      cases hook
      exact thrift_zipped upstream fun p hp => below p.1 (List.fst_mem_of_mem_zipIdx hp)
  | shift | axisScaling =>
      cases hook
      exact thrift_zipped upstream fun p hp => below p.1 (List.of_mem_zip hp).1
  | axisRotation id r h =>
      cases hook
      have generator : Node.Below given (.constant id r.generator) := .of_mem (held (generator_mem h))
      refine thrift_onOne below fun a ha => ?_
      simp [Recipe.mul, Recipe.dot, ha, upstream, generator]
  | axisAngleRotation | fromHomogeneous => exact absurd hook nofun

theorem typed_generators : ∀ n ∈ generators K, Typed n := by
  intro n hn
  rcases List.mem_mapIdx.1 hn with ⟨id, lt, rfl⟩
  exact .constant id (Literal.hasShape_ofFn _ _).complete

end

/-! ## Simplification -/

theorem complete_onOne {name : String} {f : Node K → Rule K α} (h : ∀ a, (f a).Complete) :
    (onOne name f operands).Complete :=
  onOne_cases (P := Recipe.Complete) (Q := fun _ => True) (fun _ => trivial) (fun _ _ => trivial)
    fun a _ => h a

theorem complete_onTwo {name : String} {f : Node K → Node K → Rule K α}
    (h : ∀ a b, (f a b).Complete) : (onTwo name f operands).Complete :=
  onTwo_cases (P := Recipe.Complete) (Q := fun _ => True) (fun _ => trivial) (fun _ _ => trivial)
    fun a b _ _ => h a b

theorem complete_ite {p : Prop} [Decidable p] {rule other : Rule K α} (first : rule.Complete)
    (second : other.Complete) : (if p then rule else other).Complete := by
  split
  · exact first
  · exact second

theorem complete_someConstant {v : Literal K} (complete : v.Complete) :
    (some <$> Recipe.constant v : Rule K (Option (Node K))).Complete :=
  ⟨complete, fun _ => trivial⟩

theorem complete_someFirstOperand {name : String} {a : Node K} :
    (some <$> firstOperand name a : Rule K (Option (Node K))).Complete := by
  rw [firstOperand]
  split
  · trivial
  · trivial

variable [Arithmetic K]

theorem complete_someNegated (s : Shape) (a : Node K) :
    (some <$> negated s a : Rule K (Option (Node K))).Complete := by
  have negative : (negated s a : Rule K (Node K)).Thrift [a] Node.Below :=
    thrift_negated (.of_mem List.mem_cons_self)
  have answered : (some <$> negated s a : Rule K (Option (Node K))).Thrift [a] fun _ _ => True :=
    negative.bind fun _ _ _ _ => Recipe.thrift_done.2 trivial
  exact answered.complete

variable [Numeral K]

/-- What operands that fit fold to is complete. -/
theorem complete_foldingFirst (o : Operator) {fold : List (Literal K) → Literal K}
    {rule : List (Node K) → Rule K (Option (Node K))}
    (folds : (o.definition : Definition K).hooks.fold = some fold)
    (typed : ∀ m ∈ operands, Typed m) (shapes : operands.map Node.shape = o.signature.operands)
    (h : (rule operands).Complete) : (foldingFirst fold rule operands).Complete := by
  rw [foldingFirst]
  cases literals : Node.literals? operands with
  | none => exact h
  | some values =>
      have some_assignment : Assignment K := fun _ => .zero .scalar
      have denotes := DenoteAll.of_typed (ρ := some_assignment) typed False.elim
      rw [shapes] at denotes
      have shape := o.hasShape_value (denotes.of_literals literals).1
      rw [Operator.value_eq folds] at shape
      exact ⟨shape.complete, fun _ => trivial⟩

theorem standard_completes : (Registry.standard : Registry K).Completes := by
  intro d hd optimize hook operands typed shapes
  rcases exists_operator hd with ⟨o, rfl⟩
  rw [o.definition_signature] at shapes
  have zero (s : Shape) := complete_someConstant (Literal.hasShape_zero (K := K) s).complete
  have one (s : Shape) := complete_someConstant (Literal.hasShape_one (K := K) s).complete
  cases o with
  | addition s h =>
      cases hook
      exact complete_foldingFirst (.addition s h) rfl typed shapes
        (complete_onTwo fun _ _ => trivial)
  | subtraction s h =>
      cases hook
      refine complete_foldingFirst (.subtraction s h) rfl typed shapes
        (complete_onTwo fun a b => ?_)
      exact complete_ite trivial (complete_ite (complete_someNegated s b) trivial)
  | negation =>
      cases hook
      exact complete_foldingFirst .negation rfl typed shapes (complete_onOne fun _ => trivial)
  | multiplication =>
      cases hook
      exact complete_foldingFirst .multiplication rfl typed shapes (complete_onTwo fun _ _ => trivial)
  | division =>
      cases hook
      exact complete_foldingFirst .division rfl typed shapes (complete_onTwo fun _ _ => trivial)
  | cosine =>
      cases hook
      exact complete_foldingFirst .cosine rfl typed shapes trivial
  | sine =>
      cases hook
      exact complete_foldingFirst .sine rfl typed shapes trivial
  | constructor s h =>
      cases hook
      exact complete_foldingFirst (.constructor s h) rfl typed shapes trivial
  | scaling s h =>
      cases hook
      refine complete_foldingFirst (.scaling s h) rfl typed shapes (complete_onTwo fun _ _ => ?_)
      exact complete_ite (zero s) (complete_ite trivial trivial)
  | innerProduct s h =>
      cases hook
      refine complete_foldingFirst (.innerProduct s h) rfl typed shapes
        (complete_onTwo fun _ _ => ?_)
      exact complete_ite (complete_someConstant (Literal.hasShape_scalar _).complete) trivial
  | selector s h i lt =>
      cases hook
      exact complete_foldingFirst (.selector s h i lt) rfl typed shapes
        (complete_onOne fun _ => trivial)
  | transposition s h =>
      cases hook
      exact complete_foldingFirst (.transposition s h) rfl typed shapes
        (complete_onOne fun _ => complete_ite complete_someFirstOperand trivial)
  | matrixProduct s h =>
      cases hook
      exact complete_foldingFirst (.matrixProduct s h) rfl typed shapes
        (complete_onTwo fun _ _ => trivial)
  | columnProduct m v h =>
      cases hook
      refine complete_foldingFirst (.columnProduct m v h) rfl typed shapes
        (complete_onTwo fun _ _ => ?_)
      exact complete_ite (zero v) trivial
  | outerProduct m v h =>
      cases hook
      refine complete_foldingFirst (.outerProduct m v h) rfl typed shapes
        (complete_onTwo fun _ _ => ?_)
      exact complete_ite (zero m) trivial
  | axisRotation id r h =>
      cases hook
      exact complete_onOne fun _ => complete_ite (one r.shape) trivial
  | shift =>
      cases hook
      exact complete_ite (one .mat44) trivial
  | axisScaling =>
      cases hook
      refine complete_ite (complete_someConstant ?_) (complete_ite (one .mat44) trivial)
      exact (Literal.hasShape_oneHot .mat44 15).complete
  | axisAngleRotation =>
      cases hook
      exact complete_onTwo fun _ _ => complete_ite (one .mat44) trivial
  | fromHomogeneous => exact absurd hook nofun

/-- The standard hooks draw on what they are given and on the generators, and make complete
constants. -/
theorem standard_thrifty : (Registry.standard : Registry K).Thrifty (generators K) where
  optimize := standard_draws trivial
  completes := standard_completes
  deriv hook _ _ _ held below := by
    rcases operator_of_hook (·.deriv) rfl hook with ⟨o, _, hook⟩
    exact o.deriv_thrift hook held below
  gradient hook _ _ _ held below upstream := by
    rcases operator_of_hook (·.gradient) rfl hook with ⟨o, _, hook⟩
    exact o.gradient_thrift hook held below upstream

end Standard

end SymbolicLinalg
