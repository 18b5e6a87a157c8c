import SymbolicLinalg.Proofs.Accord
import SymbolicLinalg.Proofs.Computation
import SymbolicLinalg.Proofs.Replacement
import SymbolicLinalg.Proofs.Reuse
import SymbolicLinalg.Proofs.Sweep
import SymbolicLinalg.Proofs.Upstream

/-!
# Variables — passes introduce no leaves

The standard hooks make constants and applications, and never a leaf.  Whatever a pass makes is
therefore composed of the leaves it was given: those of the expression, and for gradients those of the
seed.  Substitution takes the bound leaves out and puts the leaves of their replacements in.

Seeds and replacements may have operators that the registry does not know.  They are composed over a
larger registry, whose further operators have no hooks.

* `Node.LeafIs`: the atoms of expressions whose leaves have a property;
* `Recipe.Accords.makes`: hooks that make nothing of identities make no leaves;
* `Standard.passes_keep_leaves`: what passes come to has no other leaves than it may have.
-/

namespace SymbolicLinalg

variable {K ρ σ α β : Type}

/-! ## Leaves of expressions -/

namespace Node

/-- A leaf has a property; constants are not asked for it. -/
def LeafIs (P : Node K → Prop) (x : Node K) : Prop :=
  x.isLeaf = true → P x

/-- All leaves of an expression are leaves of some sources. -/
def LeavesFrom (sources : List (Node K)) (n : Node K) : Prop :=
  ∀ x, n.Reaches x → x.isLeaf = true → Below sources x

variable {P : Node K → Prop} {r : Registry K} {n : Node K}

theorem Composed.leaf (h : n.Composed (LeafIs P) r) {x : Node K} (reached : n.Reaches x)
    (leaf : x.isLeaf = true) : P x := by
  refine h.plain x reached ?_ leaf
  cases x with
  | constant | leaf => rfl
  | application => exact absurd leaf nofun

end Node

/-! ## Bindings that count -/

/-- The binding is the last one of its leaf. -/
def Binding.Counts (bindings : List (Binding K)) (b : Binding K) : Prop :=
  ∃ earlier later, bindings = earlier ++ b :: later ∧ ∀ c ∈ later, c.leaf ≠ b.leaf

theorem Binding.Counts.mem {bindings : List (Binding K)} {b : Binding K} (h : b.Counts bindings) :
    b ∈ bindings := by
  rcases h with ⟨earlier, later, rfl, _⟩
  exact List.mem_append_cons_self

/-- Where nothing is bound to a leaf, it is left as it is; otherwise the last binding counts. -/
theorem Registry.bindingMemo_cases [Arithmetic K] [Numeral K] (bindings : List (Binding K))
    (id : NodeId) :
    ((bindingMemo bindings)[id]? = none ∧ ∀ b ∈ bindings, b.leaf.id ≠ id) ∨
      ∃ b : Binding K, b.Counts bindings ∧ b.leaf.id = id ∧
        (bindingMemo bindings)[id]? = some b.replacement := by
  induction bindings using List.reverseRecOn with
  | nil => exact .inl ⟨by simp [bindingMemo], nofun⟩
  | append_singleton earlier latest ih =>
      have step : bindingMemo (earlier ++ [latest]) =
          (bindingMemo earlier).insert latest.leaf.id latest.replacement := by
        rw [bindingMemo, List.foldl_append]
        rfl
      rw [step, Std.HashMap.getElem?_insert]
      by_cases same : latest.leaf.id = id
      · exact .inr ⟨latest, ⟨earlier, [], rfl, nofun⟩, same, if_pos (beq_iff_eq.2 same)⟩
      · rw [if_neg (by simpa using same)]
        rcases ih with ⟨missing, free⟩ | ⟨b, ⟨before, after, rfl, last⟩, rfl, found⟩
        · refine .inl ⟨missing, fun b hb => ?_⟩
          rcases List.mem_append.1 hb with hb | hb
          · exact free b hb
          · exact List.mem_singleton.1 hb ▸ same
        · refine .inr ⟨b, ⟨before, after ++ [latest], by simp, fun c hc => ?_⟩, rfl, found⟩
          rcases List.mem_append.1 hc with hc | hc
          · exact last c hc
          · rw [List.mem_singleton.1 hc]
            exact fun leaves => same (congrArg Node.id leaves)

/-! ## Recipes that make no leaves -/

/-- A recipe that accords with another makes no leaf: leaves that are made are like no others. -/
theorem Recipe.Accords.makes {c : Correspondence K ρ σ} {rel : α → β → Prop}
    {recipe : Recipe K ρ σ α} {recipe' : Recipe K ρ σ β} (h : recipe.Accords c rel recipe')
    (nodes : ∀ n, c.nodes n n) (replies : ∀ a, c.answered a a) (P : Node K → Prop) :
    recipe.Makes (Node.LeafIs P) := by
  induction h with
  | done _ | refuse _ => trivial
  | make like _ ih =>
      refine ⟨?_, fun n => ih n n (nodes n)⟩
      cases like with
      | constant v => exact fun _ => nofun
      | apply | applyFor => trivial
  | ask _ _ ih => exact fun a => ih a a (replies a)

namespace Standard

open Node (LeafIs LeavesFrom)

theorem forall₂_sameTree (ns : List (Node K)) : List.Forall₂ Node.SameTree ns ns :=
  List.forall₂_same.2 fun _ _ => rfl

theorem makes_building {rel : α → α → Prop} {rule : Rule K α} {P : Node K → Prop}
    (h : rule.Accords (.building Node.SameTree) rel rule) : rule.Makes (LeafIs P) :=
  h.makes (fun _ => rfl) (fun reply => reply.elim) P

variable [Arithmetic K] [Numeral K] {P : Node K → Prop} {sources : List (Node K)} {e n m : Node K}
  {bindings : List (Binding K)} {w w' : Workspace K}

/-! ## Registries with further operators -/

/-- A registry with the standard operators and others, which are left as they are written. -/
structure Enlarges (more : Registry K) : Prop where
  standard : (Registry.standard : Registry K).definitions ⊆ more.definitions
  optimize : ∀ d ∈ more.definitions, ∀ optimize, d.hooks.optimize = some optimize →
    d ∈ (Registry.standard : Registry K).definitions

theorem enlarges_standard : Enlarges (Registry.standard : Registry K) :=
  ⟨List.Subset.refl _, fun _ hd _ _ => hd⟩

/-- The operator of an application, without hooks. -/
def bare? : Node K → Option (Definition K)
  | .application _ s _ => some ⟨s, {}⟩
  | .constant _ _ | .leaf _ _ _ => none

/-- The standard registry with the operators of some expressions, whichever these are. -/
def vocabulary (sources : List (Node K)) : Registry K :=
  ⟨(Registry.standard : Registry K).definitions ++
    (sources.flatMap Node.postOrder).filterMap bare?⟩

theorem enlarges_vocabulary (sources : List (Node K)) : Enlarges (vocabulary sources) where
  standard := List.subset_append_left _ _
  optimize d hd optimize hook := by
    rcases List.mem_append.1 hd with hd | hd
    · exact hd
    · rcases List.mem_filterMap.1 hd with ⟨n, _, bare⟩
      cases n with
      | constant | leaf => cases bare
      | application => cases bare; cases hook

/-- Sources that fit together are composed of their own leaves. -/
theorem composed_vocabulary (fitting : ∀ n ∈ sources, n.Fitting) (coherent : Node.Coherent sources) :
    ∀ n ∈ sources, n.Composed (LeafIs (Node.Below sources)) (vocabulary sources) := by
  intro n hn
  have alone : Node.Coherent [n] := coherent.of_subset (by simpa using hn)
  constructor
  · intro id s operands reached
    have listed := (Node.mem_postOrder_iff alone).2 reached
    refine ⟨⟨⟨s, {}⟩, List.mem_append_right _ ?_, rfl⟩, fitting n hn id s operands reached⟩
    exact List.mem_filterMap.2 ⟨_, List.mem_flatMap.2 ⟨n, hn, listed⟩, rfl⟩
  · exact fun x reached _ _ => ⟨n, hn, reached⟩

theorem addition_adds : ∀ t ∈ signatures, t.name = "+" → t.operands = [t.result, t.result] := by
  decide

/-- Among the standard operators, sums have the shapes of their operands. -/
theorem standard_addsAlike : (Registry.standard : Registry K).AddsAlike := by
  intro s d found
  rcases Registry.candidate_of_resolve_eq_ok found with ⟨hd, name, shapes⟩
  rcases exists_operator hd with ⟨o, rfl⟩
  rw [o.definition_signature] at name shapes ⊢
  have same := shapes.symm.trans (addition_adds o.signature (signature_mem_signatures o) name)
  exact (List.cons.inj same).1.symm

theorem Enlarges.knows {more : Registry K} (h : Enlarges more) (o : Operator) :
    more.Knows o.signature := by
  have known : (Registry.standard : Registry K).Knows o.signature := knows_iff.2 ⟨o, rfl⟩
  rcases known with ⟨d, hd, same⟩
  exact ⟨d, h.standard hd, same⟩

theorem Enlarges.within {more : Registry K} (h : Enlarges more) :
    (Registry.standard : Registry K).Within more :=
  ⟨h.standard, fun _ => standard_addsAlike⟩

/-! ## The standard hooks -/

theorem typed_leaves (typed : Typed n) (leaves : ∀ x, n.Reaches x → x.isLeaf = true → P x) :
    n.Composed (LeafIs P) Registry.standard where
  applied := (composed_typed.2 typed).applied
  plain x reached _ := leaves x reached

theorem leaves_constructs {more : Registry K} {captured : List (Node K)} (enlarges : Enlarges more)
    (sub : captured ⊆ generators K) : more.Constructs (LeafIs P) captured where
  draws d hd _ optimize hook :=
    standard_draws trivial d (enlarges.optimize d hd optimize hook) trivial optimize hook
  simplifies d hd optimize hook operands _ _ := by
    rcases exists_operator (enlarges.optimize d hd optimize hook) with ⟨o, rfl⟩
    exact makes_building
      (o.accords_optimize Node.resembles_sameTree (forall₂_sameTree operands) hook)
  composed n hn := by
    refine (typed_leaves (typed_generators n (sub hn)) fun x reached leaf => ?_).mono
      enlarges.standard
    -- the generators are constants
    rcases List.mem_mapIdx.1 (sub hn) with ⟨id, lt, rfl⟩
    obtain rfl := reached.eq_of_operands_eq_nil rfl
    exact absurd leaf nofun

theorem leaves_expands : (Registry.standard : Registry K).Expands (LeafIs P) (generators K) where
  expand hook operands _ _ below := by
    rcases operator_of_hook (·.expand) rfl hook with ⟨o, _, hook⟩
    refine ⟨((draws_expand o below hook).allow fun _ _ => trivial).mono ?_, makes_building
      (o.accords_expand Node.resembles_sameTree (forall₂_sameTree operands) hook)⟩
    rintro now n? ⟨n, rfl, below⟩
    exact offered_some below
  replace hook operands _ _ below := by
    rcases operator_of_hook (·.replace) rfl hook with ⟨o, _, hook⟩
    exact ⟨(draws_replace o below hook).allow fun _ _ => trivial, makes_building
      (o.accords_replace Node.resembles_sameTree (forall₂_sameTree operands) hook)⟩

theorem leaves_derives (wrt : Node K) :
    (Registry.standard : Registry K).Derives (LeafIs P) (generators K) wrt where
  deriv {s rule} hook operands given held below := by
    have draws : (rule wrt operands).Draws Registry.anyName given Node.Below :=
      (standard_thrifty.deriv hook held below).draws
    rcases operator_of_hook (·.deriv) rfl hook with ⟨o, _, hook⟩
    have like : Differentiating (K := K) ⟨Node.SameTree, Node.SameTree, Node.SameTree⟩ :=
      ⟨Node.resembles_sameTree, fun _ _ same => same, fun _ _ same => same, fun _ => rfl⟩
    have accords : (rule wrt operands).Accords _ Node.SameTree (rule wrt operands) :=
      o.accords_deriv like (forall₂_sameTree operands) hook
    exact ⟨draws, accords.makes (fun _ => rfl) (fun _ => rfl) P⟩
  zero _ _ := nofun
  one _ _ := nofun

theorem leaves_routes : (Registry.standard : Registry K).Routes (LeafIs P) (generators K) := by
  intro s rule hook g operands given held below upstream
  have draws := (standard_thrifty.gradient hook held below upstream).draws
  rcases operator_of_hook (·.gradient) rfl hook with ⟨o, _, hook⟩
  have like : Contributing (K := K)
      ⟨Node.SameTree, fun p p' => p.operand.SameTree p'.operand, fun _ _ => True⟩ Node.SameTree :=
    ⟨Node.resembles_sameTree, fun _ _ same => same, fun _ _ _ _ same _ => same, fun _ => rfl⟩
  have accords := o.accords_gradient like (forall₂_sameTree operands) (rfl : g.SameTree g) hook
  exact ⟨draws, accords.makes (fun _ => rfl) (fun _ => trivial) P⟩

/-! ## Lowering, folding and differentiation -/

/-- Well-typed sources are composed of their own leaves. -/
theorem composed_sources (typed : ∀ n ∈ sources, Typed n) :
    ∀ n ∈ sources, n.Composed (LeafIs (Node.Below sources)) (Registry.standard : Registry K) :=
  fun n hn => typed_leaves (typed n hn) fun _ reached _ => ⟨n, hn, reached⟩

/-- A pass over one expression comes to an expression of its leaves, if every visit does. -/
theorem starting_leaves {visit : Node K → Pass K (Node K)}
    (around : Around (Registry.standard : Registry K) (generators K ++ [e]) w.nextId)
    (visits : Lowers (alike (LeafIs (Node.Below [e])) (Registry.standard : Registry K))
      Registry.anyName (generators K ++ [e]) []
      (Kept (alike (LeafIs (Node.Below [e])) (Registry.standard : Registry K))
        (generators K ++ [e])) visit e) :
    Triple (fun v => v = w) (Work.starting ∅ (visit e)) (fun m _ => m.LeavesFrom [e])
      fun _ _ => True := by
  refine .starting ((visits _ (List.Subset.refl _) (.of_mem (by simp))).weaken ?_ ?_
    fun _ _ _ => trivial)
  · rintro ⟨v, memo⟩ ⟨rfl, rfl⟩
    exact .empty around.stock
  · rintro m s ⟨more, _, form, _⟩ x reached leaf
    exact form.2.1.leaf reached leaf

/-! ## Gradients -/

theorem backpropFrom_leaves {seed : Node K} {deps : List (Node K)} {gradients : Gradients K}
    (typed : Typed e) (fitting : seed.Fitting)
    (coherent : Node.Coherent (generators K ++ [e, seed]))
    (older : ∀ n ∈ generators K ++ [e, seed], n.Older w.nextId)
    (run : ((Registry.standard : Registry K).backpropFrom e deps seed).runIn w =
      (.ok gradients, w')) {leaf g : Node K} (found : gradients.get? leaf = some g) :
    g.LeavesFrom [e, seed] := by
  have enlarges := enlarges_vocabulary [e, seed]
  have composed := composed_vocabulary (List.forall_mem_cons.2
    ⟨typed.fitting, List.forall_mem_singleton.2 fitting⟩)
    (coherent.of_subset (List.subset_append_right _ _))
  have known (n : Node K) (hn : n ∈ [e, seed]) : Node.Below (generators K ++ [e, seed]) n :=
    .of_mem (List.mem_append_right _ hn)
  have streaming : Streaming (vocabulary [e, seed]) w.events.toList (generators K ++ [e, seed]) w :=
    ⟨.of_coherent coherent older, .now w⟩
  rcases (Registry.backpropFrom_streams_within (leaves_constructs enlarges (List.Subset.refl _))
    enlarges.within (List.subset_append_left _ _) leaves_routes (known e (by simp))
    (composed e (by simp)) (known seed (by simp)) (composed seed (by simp)) deps).of_runIn_eq_ok
    streaming run with ⟨more, pending, _, streams⟩
  intro x reached isLeaf
  rw [Gradients.get?, Option.map_eq_some_iff] at found
  rcases found with ⟨⟨y, g⟩, found, rfl⟩
  exact (streams.flow.reached leaf.id y g found).2.2.composed.leaf reached isLeaf

/-- A rotation of the plane has a gradient for its angle. -/
theorem backpropFrom_rotation_reaches :
    let a : Node ℚ := .leaf 4 "a" .scalar
    let rotation : Node ℚ := .application 6 ⟨.mat33, "mat33RotationZ", [.scalar]⟩ [a]
    let seed : Node ℚ := .leaf 7 "seed" .mat33
    ∃ gradients w' g, ((Registry.standard : Registry ℚ).backpropFrom rotation [a] seed).runIn
      ⟨8, #[]⟩ = (.ok gradients, w') ∧ gradients.get? a = some g := by
  intro a rotation seed
  have planar : axisRotations[0]? = some AxisRotation.planar := rfl
  let o : Operator := .axisRotation 0 .planar planar
  have typed : Typed rotation :=
    typed_application o 6 rfl (List.forall_mem_singleton.2 (.leaf 4 "a" .scalar))
  have seedTyped : Typed seed := .leaf 7 "seed" .mat33
  have coherent : Node.Coherent [rotation, a] :=
    .of_closed (by simp [rotation, a]) (by simp [rotation, a])
  have smooth : Smooth rotation :=
    (smooth_application (o := o)).2
      ⟨⟨nofun, nofun⟩, List.forall_mem_singleton.2 (Node.appliesOnly_of_plain rfl)⟩
  -- the seed is what a rotation changes by at the angle zero
  let ρ : Assignment ℚ := fun id => if id = 7 then AxisRotation.planar.generator else .scalar 0
  have fits : ρ.Fits rotation :=
    Assignment.fits_application.2
      (List.forall_mem_singleton.2 (Assignment.fits_leaf.2 (Literal.hasShape_scalar 0)))
  have fitsSeed : ρ.Fits seed := Assignment.fits_leaf.2 (Literal.hasShape_ofFn _ _)
  have angle : rotation.Reaches a := .of_mem_operands (List.mem_singleton_self a)
  have moving : Moving ρ a (.scalar 1) rotation :=
    { unique := fun y below same => coherent.eq_of_reaches below angle same
      tangent := Literal.hasShape_scalar 1
      fits := fits
      smooth := smooth.above a }
  have sweepable : Sweepable True ρ a (.scalar 1) rotation [a] :=
    { typed := typed
      coherent := coherent
      leaves := List.forall_mem_singleton.2 rfl
      smooth := fun x _ => smooth.above x
      moving := fun _ => moving
      target := fun _ => List.mem_singleton_self a }
  have moved : dualValue ρ a (.scalar 1) a = .scalar ⟨0, 1⟩ := rfl
  have rate : directional ρ a (.scalar 1) rotation =
      (AxisRotation.planar.value (⟨0, 1⟩ : Dual ℚ)).tangent :=
    calc directional ρ a (.scalar 1) rotation
        = (o.value [dualValue ρ a (.scalar 1) a]).tangent :=
          congrArg Literal.tangent (dualValue_application 6 o [a])
      _ = (AxisRotation.planar.value (⟨0, 1⟩ : Dual ℚ)).tangent := by
          rw [moved, Operator.value_axisRotation, Literal.component_scalar]
  have denotes : Denotes True ρ seed .mat33 (seed.value Standard.meaning ρ) :=
    .of_typed seedTyped fun _ => fitsSeed
  refine backpropFrom_reaches sweepable denotes ?_ _
  rw [rate]
  decide +kernel

/-! ## Substitution -/

/-- A leaf that substitution may leave: one that is not bound, or one of a replacement that is put
in. -/
def Remains (e : Node K) (bindings : List (Binding K)) (x : Node K) : Prop :=
  (e.Reaches x ∧ ∀ b ∈ bindings, b.leaf ≠ x) ∨
    ∃ b : Binding K, b.Counts bindings ∧ e.Reaches b.leaf ∧ b.replacement.Reaches x

/-- All replacements are over the standard operators. -/
def StandardReplacements (bindings : List (Binding K)) : Prop :=
  ∀ b ∈ bindings, Typed b.replacement

/-- A node of the shape of another, without leaves that were to be replaced. -/
structure Freed (e : Node K) (bindings : List (Binding K)) (n m : Node K) : Prop where
  shape : m.shape = n.shape
  composed : m.Composed (LeafIs (Remains e bindings)) (vocabulary (e :: Binding.nodes bindings))
  typed : StandardReplacements bindings → Typed m

/-- What is known of what operands have become. -/
structure FreedAll (e : Node K) (bindings : List (Binding K)) (operands replaced : List (Node K)) :
    Prop where
  shapes : replaced.map Node.shape = operands.map Node.shape
  composed : ∀ m ∈ replaced,
    m.Composed (LeafIs (Remains e bindings)) (vocabulary (e :: Binding.nodes bindings))
  typed : StandardReplacements bindings → ∀ m ∈ replaced, Typed m

theorem freed_all {operands replaced : List (Node K)}
    (h : List.Forall₂ (Freed e bindings) operands replaced) :
    FreedAll e bindings operands replaced := by
  induction h with
  | nil => exact ⟨rfl, nofun, fun _ => nofun⟩
  | cons first _ ih =>
      refine ⟨?_, List.forall_mem_cons.2 ⟨first.composed, ih.composed⟩, fun standard =>
        List.forall_mem_cons.2 ⟨first.typed standard, ih.typed standard⟩⟩
      rw [List.map_cons, List.map_cons, first.shape, ih.shapes]

/-- Building an operator adds no leaf, and over standard operands it is never given up. -/
theorem rebuild_freed {o : Operator} {operands replaced given : List (Node K)}
    (related : List.Forall₂ (Freed e bindings) operands replaced)
    (shapes : operands.map Node.shape = o.signature.operands)
    (around : ∀ m ∈ replaced, Node.Below given m) (id : NodeId) :
    Triple (fun w => Stock Registry.anyName given [] w.nextId)
      ((Registry.standard : Registry K).rebuild o.signature replaced)
      (fun m w => Freed e bindings (.application id o.signature operands) m ∧
        Stock Registry.anyName (m :: given) [] w.nextId)
      fun _ _ => StandardReplacements bindings → False := by
  have freed := freed_all related
  have enlarges := enlarges_vocabulary (e :: Binding.nodes bindings)
  have gathers := Registry.rebuild_gathers
    (leaves_constructs (P := Remains e bindings) enlarges (List.nil_subset (generators K)))
    enlarges.standard (knows_iff.2 ⟨o, rfl⟩) (List.nil_subset replaced) (fun m hm => .of_mem hm)
    given
  have made := Triple.under fun standard : StandardReplacements bindings =>
    rebuild_ofShape (freed.shapes.trans shapes) (freed.typed standard)
  refine (gathers.both made).weaken ?_ ?_ fun _ _ h => h.2
  · exact fun w stock => ⟨.of_stock stock around freed.composed, trivial⟩
  · rintro m w ⟨⟨shape, gathered⟩, made⟩
    have composed := gathered.composed m List.mem_cons_self
    refine ⟨⟨shape, composed, fun standard => (made standard).typed⟩, ?_⟩
    exact gathered.stock_append.of_subset
      (List.cons_subset_cons m (List.subset_append_right replaced given))

theorem substituteNode_freed (typed : Typed e) :
    (Registry.standard : Registry K).Replaces (Freed e bindings) (Registry.bindingMemo bindings) [e]
      (fun _ _ => StandardReplacements bindings → False) e := by
  have part {n : Node K} (below : Node.Below [e] n) : e.Reaches n := by
    rcases below with ⟨k, hk, below⟩
    rwa [List.mem_singleton.1 hk] at below
  have enlarges := enlarges_vocabulary (e :: Binding.nodes bindings)
  refine Registry.substituteNode_replaces ?_ ?_ ?_ (.of_mem List.mem_cons_self)
  · intro n below plain free
    have known := typed.of_reaches (part below)
    refine ⟨rfl, Node.composed_of_plain plain fun _ => .inl ⟨part below, fun b hb same => ?_⟩,
      fun _ => known⟩
    rcases Registry.bindingMemo_cases bindings n.id with ⟨_, others⟩ | ⟨_, _, _, found⟩
    · exact others b hb (congrArg Node.id same)
    · exact absurd (free.symm.trans found) nofun
  · intro id s operands below related
    have known : Typed (.application id s operands) := typed.of_reaches (part below)
    rcases Typed.operator known with ⟨o, rfl, shapes, _⟩
    exact ⟨rfl, Node.composed_application (enlarges.knows o) shapes (freed_all related).composed,
      fun _ => known⟩
  · intro id s operands replaced given below related _ around
    rcases Typed.operator (typed.of_reaches (part below)) with ⟨o, rfl, shapes, _⟩
    exact (rebuild_freed related shapes around id).weaken (fun _ h => h) (fun _ _ h => h)
      fun _ _ h _ => h

theorem substitute_freed (typed : Typed e) (bindable : Substitutable e bindings w.nextId)
    (fitting : ∀ b ∈ bindings, b.replacement.Fitting) :
    Triple (fun v => v = w) ((Registry.standard : Registry K).substitute e bindings)
      (fun m _ => Freed e bindings e m) fun _ _ => StandardReplacements bindings → False := by
  refine Registry.substitute_triple bindable (substituteNode_freed typed) ?_
  intro b hb reached found
  rcases bindable.leaves b hb with ⟨id, name, same⟩
  rcases Registry.bindingMemo_cases bindings b.leaf.id with ⟨missing, _⟩ | ⟨c, counts, sameId, known⟩
  · exact absurd (missing.symm.trans found) nofun
  -- the binding that counts is one of the same leaf
  have leaf (d : Binding K) (hd : d ∈ bindings) :
      Node.Below (e :: Binding.nodes bindings) d.leaf :=
    .of_mem (List.mem_cons_of_mem e (Binding.leaf_mem_nodes hd))
  have leaves := bindable.coherent.eq_of_id_eq (leaf c counts.mem) (leaf b hb) sameId
  have replacements : c.replacement = b.replacement := Option.some.inj (known.symm.trans found)
  have fits : ∀ n ∈ e :: Binding.nodes bindings, n.Fitting := by
    refine List.forall_mem_cons.2 ⟨typed.fitting, fun n hn => ?_⟩
    rcases List.mem_flatMap.1 hn with ⟨c, hc, hn⟩
    rcases bindable.leaves c hc with ⟨id, name, same⟩
    rcases List.mem_pair.1 hn with rfl | rfl
    · rw [same]
      exact (Node.WellTyped.leaf id name _ : Typed _).fitting
    · exact fitting c hc
  have composed := composed_vocabulary fits bindable.coherent b.replacement
    (List.mem_cons_of_mem e (Binding.replacement_mem_nodes hb))
  refine ⟨by rw [same]; rfl, ⟨composed.applied, fun x below _ _ => .inr ?_⟩, fun h => h b hb⟩
  exact ⟨c, counts, leaves ▸ reached, replacements ▸ below⟩

/-! ## All passes -/

/-- Passes introduce no variables.  All leaves of what an expression is lowered to, of what it is
folded to and of its derivatives are leaves of the expression, those of a gradient are leaves of the
expression or of the seed, and those of what substitution comes to are leaves that are not bound, or
leaves of replacements that are put in.  Seeds and replacements may have operators of other
registries; over the standard ones substitution comes to a result. -/
theorem passes_keep_leaves
    (around : Around (Registry.standard : Registry K) (generators K ++ [e]) w.nextId) :
    (∃ m w', ((Registry.standard : Registry K).lower e).runIn w = (.ok m, w') ∧
      m.LeavesFrom [e]) ∧
    (∃ m w', ((Registry.standard : Registry K).fold e).runIn w = (.ok m, w') ∧
      m.LeavesFrom [e]) ∧
    (∀ wrt m w', ((Registry.standard : Registry K).derivative e wrt).runIn w = (.ok m, w') →
      m.LeavesFrom [e]) ∧
    (∀ seed deps gradients w', seed.Fitting → Node.Coherent (generators K ++ [e, seed]) →
      seed.Older w.nextId →
      ((Registry.standard : Registry K).backpropFrom e deps seed).runIn w = (.ok gradients, w') →
      ∀ leaf g, gradients.get? leaf = some g → g.LeavesFrom [e, seed]) ∧
    ∀ bindings, Substitutable e bindings w.nextId → (∀ b ∈ bindings, b.replacement.Fitting) →
      (StandardReplacements bindings →
        ∃ m w', ((Registry.standard : Registry K).substitute e bindings).runIn w = (.ok m, w')) ∧
      ∀ m w', ((Registry.standard : Registry K).substitute e bindings).runIn w = (.ok m, w') →
        ∀ x, m.Reaches x → x.isLeaf = true →
          (e.Reaches x ∧ ∀ b ∈ bindings, b.leaf ≠ x) ∨
            ∃ b : Binding K, b.Counts bindings ∧ e.Reaches b.leaf ∧ b.replacement.Reaches x := by
  have mem : e ∈ generators K ++ [e] := List.mem_append_right _ List.mem_cons_self
  have typed : Typed e := around.typed e mem
  have coherent : Node.Coherent [e] := around.coherent.of_subset (List.subset_append_right _ _)
  have composed := composed_sources (List.forall_mem_singleton.2 typed) e List.mem_cons_self
  have constructs {P : Node K → Prop} :=
    leaves_constructs (P := P) enlarges_standard (List.Subset.refl (generators K))
  have held := List.subset_append_left (generators K) [e]
  refine ⟨?lowered, ?folded, ?derived, ?routed, ?substituted⟩
  case lowered =>
    have some_assignment : Assignment K := fun _ => .zero .scalar
    have visits := Registry.lowerNext_alike constructs held leaves_expands composed
    rcases (lower_triple (ρ := some_assignment) typed coherent
      List.mem_cons_self).runIn_eq_ok (List.forall_mem_singleton.2 (around.older e mem)) with
      ⟨m, w', run, _⟩
    exact ⟨m, w', run, (starting_leaves around visits).of_runIn_eq_ok rfl run⟩
  case folded =>
    have folds : (Registry.standard : Registry K).Folds (LeafIs (Node.Below [e])) :=
      fun _ _ _ _ _ => nofun
    have visits := Registry.foldNode_alike constructs held folds composed
    rcases (fold_triple coherent (foldNode_computes typed)).runIn_eq_ok (around.older e mem) with
      ⟨m, w', run, _⟩
    exact ⟨m, w', run, (starting_leaves around visits).of_runIn_eq_ok rfl run⟩
  case derived =>
    intro wrt m w' run
    have visits := Registry.deriveNext_alike constructs held (leaves_derives wrt) composed
    have checked : Triple (fun v => v = w) ((Registry.standard : Registry K).derivative e wrt)
        (fun m _ => m.LeavesFrom [e]) fun _ _ => True :=
      Triple.bind (.ofExcept (fun _ _ _ => id) fun _ _ _ _ => trivial)
        fun _ => starting_leaves around visits
    exact checked.of_runIn_eq_ok rfl run
  case routed =>
    intro seed deps gradients w' fitting together older run leaf g found
    refine backpropFrom_leaves typed fitting together ?_ run found
    rw [show generators K ++ [e, seed] = (generators K ++ [e]) ++ [seed] by simp]
    exact List.forall_mem_append.2 ⟨around.older, List.forall_mem_singleton.2 older⟩
  case substituted =>
    intro bindings bindable fitting
    have freed := substitute_freed typed bindable fitting
    refine ⟨fun standard => ?_, fun m w' run x reached leaf => ?_⟩
    · rcases (freed.weaken (fun _ h => h) (fun _ _ h => h) fun _ _ given_up =>
        given_up standard).runIn_eq_ok rfl with ⟨m, w', run, _⟩
      exact ⟨m, w', run⟩
    · exact (freed.of_runIn_eq_ok rfl run).composed.leaf reached leaf

/-- A rotation of the plane by an angle `a`: lowered, differentiated with a leaf for a seed, and with
another angle in its place. -/
theorem passes_keep_leaves_rotation :
    let a : Node ℚ := .leaf 4 "a" .scalar
    let b : Node ℚ := .leaf 5 "b" .scalar
    let rotation : Node ℚ := .application 6 ⟨.mat33, "mat33RotationZ", [.scalar]⟩ [a]
    let seed : Node ℚ := .leaf 7 "seed" .mat33
    (∃ m w', ((Registry.standard : Registry ℚ).lower rotation).runIn ⟨8, #[]⟩ = (.ok m, w') ∧
      ∀ x, m.Reaches x → x.isLeaf = true → x = a) ∧
    (∃ gradients w' g, ((Registry.standard : Registry ℚ).backpropFrom rotation [a] seed).runIn
        ⟨8, #[]⟩ = (.ok gradients, w') ∧ gradients.get? a = some g ∧
      ∀ x, g.Reaches x → x.isLeaf = true → x = a ∨ x = seed) ∧
    ∃ m w', ((Registry.standard : Registry ℚ).substitute rotation [⟨a, a⟩, ⟨a, b⟩]).runIn
        ⟨8, #[]⟩ = (.ok m, w') ∧ ∀ x, m.Reaches x → x.isLeaf = true → x = b := by
  intro a b rotation seed
  let nodes := generators ℚ ++ [rotation, a, b, seed]
  have closed : ∀ n ∈ nodes, ∀ m ∈ n.operands, m ∈ nodes := by
    simp [nodes, generators, axisRotations, rotation, a, b, seed]
  have distinct : (nodes.map Node.id).Nodup := by
    simp [nodes, generators, axisRotations, rotation, a, b, seed]
  have early : ∀ n ∈ nodes, n.id < 8 := by
    simp [nodes, generators, axisRotations, rotation, a, b, seed]
  have coherent : Node.Coherent nodes := .of_closed closed distinct
  have older (n : Node ℚ) (hn : n ∈ nodes) : n.Older 8 := fun y below =>
    early y (below.mem_of_closed closed hn)
  have typed : Typed rotation :=
    typed_application (.axisRotation 0 .planar rfl) 6 rfl
      (List.forall_mem_singleton.2 (.leaf 4 "a" .scalar))
  have seedTyped : Typed seed := .leaf 7 "seed" .mat33
  have sub : generators ℚ ++ [rotation] ⊆ nodes :=
    List.append_subset.2 ⟨List.subset_append_left _ _, by simp [nodes]⟩
  have around : Around (Registry.standard : Registry ℚ) (generators ℚ ++ [rotation]) 8 :=
    { coherent := coherent.of_subset sub
      older := fun n hn => older n (sub hn)
      typed := List.forall_mem_append.2
        ⟨typed_generators, List.forall_mem_singleton.2 typed⟩ }
  -- the angle is the only leaf
  have leaf {x : Node ℚ} (reached : rotation.Reaches x) (isLeaf : x.isLeaf = true) : x = a := by
    rcases Node.reaches_iff.1 reached with rfl | ⟨m, hm, below⟩
    · exact absurd isLeaf Bool.false_ne_true
    · obtain rfl := List.mem_singleton.1 hm
      exact below.eq_of_operands_eq_nil rfl
  rcases passes_keep_leaves (w := ⟨8, #[]⟩) around with
    ⟨⟨m, w', run, leaves⟩, _, _, routes, substitutes⟩
  refine ⟨⟨m, w', run, fun x reached isLeaf => ?_⟩, ?_, ?_⟩
  · rcases leaves x reached isLeaf with ⟨k, hk, below⟩
    exact leaf (List.mem_singleton.1 hk ▸ below) isLeaf
  · have known : generators ℚ ++ [rotation, seed] ⊆ nodes :=
      List.append_subset.2 ⟨List.subset_append_left _ _, by simp [nodes]⟩
    rcases backpropFrom_rotation_reaches with ⟨gradients, w', g, run, found⟩
    refine ⟨gradients, w', g, run, found, fun x reached isLeaf => ?_⟩
    have sources := routes seed [a] gradients w' seedTyped.fitting (coherent.of_subset known)
      (older seed (by simp [nodes])) run a g found x reached isLeaf
    rcases sources with ⟨k, hk, below⟩
    rcases List.mem_pair.1 hk with rfl | rfl
    · exact .inl (leaf below isLeaf)
    · exact .inr (below.eq_of_operands_eq_nil rfl)
  · have bindable : Substitutable rotation [⟨a, a⟩, ⟨a, b⟩] 8 := by
      have known : rotation :: Binding.nodes [⟨a, a⟩, ⟨a, b⟩] ⊆ nodes := by
        simp [Binding.nodes, nodes]
      exact ⟨by simp [a, b], coherent.of_subset known, fun n hn => older n (known hn)⟩
    have standard : StandardReplacements [⟨a, a⟩, ⟨a, b⟩] := by
      simpa [StandardReplacements, a, b] using
        ⟨Node.WellTyped.leaf 4 "a" .scalar, Node.WellTyped.leaf 5 "b" .scalar⟩
    rcases substitutes _ bindable fun c hc => (standard c hc).fitting with ⟨succeeds, leaves⟩
    rcases succeeds standard with ⟨m, w', run⟩
    refine ⟨m, w', run, fun x reached isLeaf => ?_⟩
    rcases leaves m w' run x reached isLeaf with
      ⟨reached, free⟩ | ⟨c, ⟨earlier, later, same, last⟩, _, below⟩
    · exact absurd (leaf reached isLeaf).symm (free ⟨a, a⟩ List.mem_cons_self)
    · -- the earlier binding of the angle does not count
      rcases earlier with _ | ⟨_, _ | ⟨_, rest⟩⟩
      · obtain ⟨rfl, rfl⟩ := List.cons.inj same
        exact absurd rfl (last ⟨a, b⟩ List.mem_cons_self)
      · obtain ⟨rfl, rfl⟩ := List.cons.inj (List.cons.inj same).2
        exact below.eq_of_operands_eq_nil rfl
      · simp at same

end Standard

end SymbolicLinalg
