import SymbolicLinalg.Folding
import SymbolicLinalg.Proofs.Everywhere
import SymbolicLinalg.Proofs.Lowered
import SymbolicLinalg.Proofs.Recognition
import SymbolicLinalg.Proofs.Replacement
import SymbolicLinalg.Proofs.Thrift

/-!
# Computation — folding computes what is constant

Folding computes applications of constants and rebuilds the others.  What an `optimize` hook answers
then is an operand or a part of one, a constant, or an application over an operand that is not a
constant, so nothing can be computed in it either.  Only the way back from homogeneous coordinates has
no hook that folds it.

* `Computed`: whatever is applied to constants only cannot be folded;
* `foldNode_computes`: folding comes to such expressions, in any arithmetic;
* `foldNode_denotes`: and keeps the value, over a field;
* `foldNode_settles`: an expression in which nothing is left to compute is folded to itself.
-/

namespace SymbolicLinalg

namespace Standard

variable {K : Type} {n m : Node K} {given others operands folded : List (Node K)}

/-- One of the operands is not a constant, unless the operator is the way back from homogeneous
coordinates. -/
def Variable (s : Signature) (operands : List (Node K)) : Prop :=
  s.name ≠ "fromHomo" → ∃ m ∈ operands, m.isConstant = false

/-- Nothing in the expression is left to compute. -/
abbrev Computed (n : Node K) : Prop :=
  n.Everywhere Variable

/-- The expression has no variables. -/
def LeafFree (n : Node K) : Prop :=
  ∀ x, n.Reaches x → x.isLeaf = false

theorem LeafFree.of_reaches (h : LeafFree n) (below : n.Reaches m) : LeafFree m :=
  fun x hx => h x (below.trans hx)

/-- Where nothing is left to compute, an expression without variables is a constant. -/
theorem Computed.isConstant (computed : Computed n) (free : LeafFree n) (cartesian : Cartesian n) :
    n.isConstant = true := by
  induction n using Node.induct with
  | constant id v => rfl
  | leaf id name s => exact absurd (free _ (.refl _)) nofun
  | application id s operands ih =>
      rcases Node.everywhere_application.1 computed with ⟨here, parts⟩
      rcases Node.appliesOnly_application.1 cartesian with ⟨homogeneous, cartesian⟩
      rcases here homogeneous with ⟨m, hm, varies⟩
      have constant := ih m hm (parts m hm) (free.of_reaches (.of_mem_operands hm)) (cartesian m hm)
      exact absurd (constant.symm.trans varies) nofun

theorem exists_of_literals?_eq_none (none : Node.literals? operands = none) :
    ∃ m ∈ operands, m.isConstant = false := by
  by_contra constants
  simp only [not_exists, not_and, Bool.not_eq_false] at constants
  rcases literals?_eq_some constants with ⟨values, some⟩
  exact absurd (none.symm.trans some) nofun

theorem isConstant_of_literals? {values : List (Literal K)}
    (literals : Node.literals? operands = some values) : ∀ m ∈ operands, m.isConstant = true := by
  have each := Node.forall₂_of_literals? literals
  clear literals
  induction each with
  | nil => exact fun m hm => absurd hm List.not_mem_nil
  | cons literal _ ih =>
      rcases eq_constant_of_literal? literal with ⟨id, rfl⟩
      exact List.forall_mem_cons.2 ⟨rfl, ih⟩

theorem literals?_eq_none (varies : ∃ m ∈ operands, m.isConstant = false) :
    Node.literals? operands = none := by
  cases literals : Node.literals? operands with
  | none => rfl
  | some values =>
      rcases varies with ⟨m, hm, varies⟩
      exact absurd ((isConstant_of_literals? literals m hm).symm.trans varies) nofun

variable [Arithmetic K] [Numeral K] {o : Operator}

/-! ## Operators that fold -/

theorem Operator.exists_fold (ne : o ≠ .fromHomogeneous) :
    ∃ fold, (o.definition : Definition K).hooks.fold = some fold := by
  cases o with
  | fromHomogeneous => exact absurd rfl ne
  | _ => exact ⟨_, rfl⟩

theorem signature_of_fromHomogeneous : ∀ t ∈ signatures, t.name = "fromHomo" →
    t = Operator.fromHomogeneous.signature := by
  decide +kernel

/-- The operator of the name is the only one that does not fold. -/
theorem Operator.fold_eq_none_iff :
    ((Registry.standard : Registry K).hooks o.signature).fold = none ↔
      o.signature.name = "fromHomo" := by
  constructor
  · intro none
    by_contra ne
    have other : o ≠ .fromHomogeneous := fun same => ne (same ▸ rfl)
    rcases Operator.exists_fold (K := K) other with ⟨fold, hook⟩
    rw [o.hooks_eq, hook] at none
    exact absurd none nofun
  · intro name
    rw [signature_of_fromHomogeneous _ (signature_mem_signatures o) name,
      Operator.fromHomogeneous.hooks_eq]
    rfl

/-- What is not folded varies. -/
theorem variable_of_unfolded
    (unfolded : (Registry.standard : Registry K).Unfolded o.signature operands) :
    Variable o.signature operands := by
  intro name
  refine exists_of_literals?_eq_none (unfolded.resolve_left fun none => name ?_)
  exact Operator.fold_eq_none_iff.1 none

theorem unfolded_of_variable (varies : Variable o.signature operands) :
    (Registry.standard : Registry K).Unfolded o.signature operands := by
  by_cases name : o.signature.name = "fromHomo"
  · exact .inl (Operator.fold_eq_none_iff.2 name)
  · exact .inr (literals?_eq_none (varies name))

/-! ## Construction -/

/-- The minus sign and the product, which simplification may apply. -/
abbrev IsSign (name : String) : Prop :=
  name = "-" ∨ name = "*"

theorem Operator.folds_of_isSign (sign : IsSign o.signature.name) : ∃ fold rule,
    (o.definition : Definition K).hooks.optimize = some (foldingFirst fold rule) := by
  have other {s : Signature} (h : o.signature = s) (ne : ¬ IsSign s.name) : False :=
    ne (h ▸ sign)
  cases o with
  | axisRotation id r h =>
      have plain (name : String) (sign : IsSign name) : IsPlain name := by
        rcases sign with rfl | rfl
        · decide
        · decide
      exact absurd (plain r.name sign) (AxisRotation.not_isPlain h)
  | shift | axisScaling | axisAngleRotation | fromHomogeneous => exact (other rfl (by decide)).elim
  | _ => exact ⟨_, _, rfl⟩

theorem make_computed :
    MakesEverywhere IsSign Variable (Registry.standard : Registry K).make := by
  refine make_everywhere (.inl rfl) (.inr rfl) fun make operands o sign _ => ?_
  by_cases varies : Variable o.signature operands
  · exact .of_property varies
  · simp only [Variable, not_forall, not_exists, not_and, Bool.not_eq_false] at varies
    rcases varies with ⟨_, constant⟩
    rcases Operator.folds_of_isSign (K := K) sign with ⟨fold, rule, hook⟩
    exact .of_constants hook constant

theorem Typed.of_applies (typed : Typed n) {name : String} (applies : n.applies name = true) :
    ∃ p : Operator, p.signature.name = name ∧ n.shape = p.signature.result ∧
      n.operands.map Node.shape = p.signature.operands := by
  cases n with
  | constant | leaf => exact absurd applies nofun
  | application id s operands =>
      rcases typed.operator with ⟨p, rfl, shapes, _⟩
      exact ⟨p, beq_iff_eq.1 applies, rfl, shapes⟩

theorem seen_belowMinus (typed : Typed n) : Seen .scalar (belowMinus n) := by
  intro seen hseen
  rcases Option.ite_none_right_eq_some.1 hseen with ⟨minus, same⟩
  rw [Bool.and_eq_true, beq_iff_eq] at minus
  rcases typed.of_applies minus.1 with ⟨p, name, _, shapes⟩
  have single : p.signature.operands.length = 1 := by
    rw [← shapes, List.length_map, minus.2]
  rw [signature_of_minus _ (signature_mem_signatures p) name single] at shapes
  rw [← Option.some.inj same, ← List.head?_map, shapes]
  rfl

/-- What is seen through a well-typed operand has the shape of the result. -/
theorem seen_of_typed (typed : ∀ m ∈ operands, Typed m)
    (shapes : operands.map Node.shape = o.signature.operands) :
    Seen o.signature.result (o.seenThrough operands) := by
  rw [Operator.seenThrough.eq_def]
  split
  · exact seen_belowMinus (typed _ (by simp))
  · rename_i s known a b
    cases scalar : s.isScalar && a.isZero with
    | false => exact seen_none
    | true =>
        obtain rfl : s = .scalar := by
          cases s <;> first | rfl | exact absurd rfl known | exact absurd scalar Bool.noConfusion
        exact seen_belowMinus (typed b (by simp))
  · rename_i s matrix a
    intro seen hseen
    rcases Option.ite_none_right_eq_some.1 hseen with ⟨twice, same⟩
    rcases (typed a (by simp)).of_applies twice with ⟨p, name, result, below⟩
    rcases signature_of_trans _ (signature_mem_signatures p) name with ⟨_, transposition⟩
    rw [transposition, ← result, List.singleton_inj.1 shapes] at below
    rw [← Option.some.inj same, ← List.head?_map, below]
    rfl
  · rename_i s container i lt a
    intro seen hseen
    rcases Option.ite_none_right_eq_some.1 hseen with ⟨constructed, same⟩
    rw [Bool.and_eq_true] at constructed
    rcases (typed a (by simp)).of_applies constructed.1 with ⟨p, name, _, below⟩
    rw [signature_of_shapeName container _ (signature_mem_signatures p) name] at below
    have place : (a.operands.map Node.shape)[i]? = some .scalar := by
      rw [below]
      exact (List.getElem?_replicate ..).trans (if_pos lt)
    rw [← Option.some.inj same, ← List.getElem?_map, place]
    rfl
  · exact seen_none

/-- Applying an operator to operands of its shapes comes to a node of the shape of its result. -/
theorem make_ofShape (made : List.Forall₂ OfShape o.signature.operands operands) :
    Triple (fun _ => True)
      ((Registry.standard : Registry K).make (.apply o.signature.name operands))
      (fun n _ => OfShape o.signature.result n) never := by
  have shapes := shapes_ofShape made
  have typed := typed_ofShape made
  have comes := apply_comes .refl o shapes
  have wellTyped := Registry.make_typed (standard_draws trivial) standard_completes
    (.apply o.signature.name operands) operands trivial ⟨trivial, fun m hm => .of_mem hm⟩ typed
  refine (Triple.both comes wellTyped).weaken (fun _ _ => ⟨trivial, trivial⟩) ?_ ?_
  · exact fun n _ h => ⟨h.2, h.1.1⟩
  · -- what is seen through a well-typed operand has the shape of the result
    rintro f w ⟨⟨seen, through, differs, _⟩, _⟩
    exact differs (seen_of_typed typed shapes seen through)

/-- Building an operator anew over operands of its shapes comes to such a node as well. -/
theorem rebuild_ofShape (shapes : operands.map Node.shape = o.signature.operands)
    (typed : ∀ m ∈ operands, Typed m) :
    Triple (fun _ => True) ((Registry.standard : Registry K).rebuild o.signature operands)
      (fun n _ => OfShape o.signature.result n) never := by
  rw [o.rebuild_eq]
  have comes := build_comes .refl o shapes (nestingLimit - 2)
  have wellTyped := Registry.buildWith_typed (standard_draws trivial) standard_completes
    (Registry.make_typed (standard_draws trivial) standard_completes)
    (definition_mem_operators o) typed
  refine (comes.both wellTyped).weaken (fun _ _ => ⟨trivial, trivial⟩) ?_ ?_
  · exact fun n _ h => ⟨h.2, h.1.1⟩
  · rintro f w ⟨⟨seen, through, differs, _⟩, _⟩
    exact differs (seen_of_typed typed shapes seen through)

/-! ## Forms -/

/-- A folded form has the shape of the expression, and nothing is left to compute in it. -/
structure ComputedForm (given : List (Node K)) (n m : Node K) : Prop where
  below : Node.Below given m
  shape : m.shape = n.shape
  typed : Typed m
  computed : Computed m
  constant : LeafFree n → Cartesian n → m.isConstant = true

def computedForm : FormRelation K where
  holds := ComputedForm
  below h := h.below
  mono sub h := { h with below := h.below.mono sub }
  self h := { h with shape := rfl, constant := h.computed.isConstant }

/-- What is known of the folded forms of operands. -/
structure ComputedForms (operands folded : List (Node K)) : Prop where
  shapes : folded.map Node.shape = operands.map Node.shape
  typed : ∀ m ∈ folded, Typed m
  computed : ∀ m ∈ folded, Computed m
  constant : (∀ n ∈ operands, LeafFree n ∧ Cartesian n) → ∀ m ∈ folded, m.isConstant = true

theorem computedForms (forms : List.Forall₂ (ComputedForm given) operands folded) :
    ComputedForms operands folded := by
  induction forms with
  | nil => exact ⟨rfl, nofun, nofun, nofun⟩
  | cons first _ ih =>
      refine ⟨?_, List.forall_mem_cons.2 ⟨first.typed, ih.typed⟩,
        List.forall_mem_cons.2 ⟨first.computed, ih.computed⟩, fun plain => ?_⟩
      · rw [List.map_cons, List.map_cons, first.shape, ih.shapes]
      · rw [List.forall_mem_cons] at plain
        exact List.forall_mem_cons.2
          ⟨first.constant plain.1.1 plain.1.2, ih.constant plain.2⟩

/-- What is left of an application that varies has variables, or the way back is applied in it. -/
theorem not_isConstant_of_unfolded {id : NodeId} (forms : ComputedForms operands folded)
    (unfolded : (Registry.standard : Registry K).Unfolded o.signature folded)
    (free : LeafFree (.application id o.signature operands)) :
    ¬ Cartesian (.application id o.signature operands) := by
  intro cartesian
  rcases Node.appliesOnly_application.1 cartesian with ⟨name, cartesian⟩
  rcases variable_of_unfolded unfolded name with ⟨m, hm, varies⟩
  have plain (n : Node K) (hn : n ∈ operands) : LeafFree n ∧ Cartesian n :=
    ⟨free.of_reaches (.of_mem_operands hn), cartesian n hn⟩
  exact absurd ((forms.constant plain m hm).symm.trans varies) nofun

/-- An operator is built anew over operands of which one varies. -/
theorem rebuild_computed (typed : ∀ m ∈ folded, Typed m) (computed : ∀ m ∈ folded, Computed m)
    (shapes : folded.map Node.shape = o.signature.operands)
    (varies : Variable o.signature folded) (below : ∀ m ∈ folded, Node.Below given m) :
    Triple (fun w => Stock Registry.anyName given others w.nextId)
      ((Registry.standard : Registry K).rebuild o.signature folded)
      (fun n w => Stock Registry.anyName (n :: given) others w.nextId ∧
        n.shape = o.signature.result ∧ Typed n ∧ Computed n) never := by
  have hd := definition_mem_operators (K := K) o
  have draws : (Registry.standard : Registry K).Draws Registry.anyName [] := standard_draws trivial
  have made := rebuild_ofShape shapes typed
  rw [o.rebuild_eq] at made ⊢
  have grows : Triple (fun w => Stock Registry.anyName given others w.nextId)
      ((Registry.standard : Registry K).build o.definition folded)
      (fun n w => Stock Registry.anyName (n :: given) others w.nextId)
      fun _ w => Stock Registry.anyName given others w.nextId :=
    Registry.buildWith_grows draws (Registry.make_grows draws) hd trivial (List.nil_subset given)
      below
  have everywhere := buildWith_everywhere make_computed o (fun _ => .inl rfl) (.inr rfl)
    (fun _ => .of_property varies) computed
  refine ((made.both grows).both everywhere).weaken ?_ ?_ ?_
  · exact fun w stock => ⟨⟨trivial, stock⟩, trivial⟩
  · exact fun n w h => ⟨h.1.2, h.1.1.shape, h.1.1.typed, h.2⟩
  · exact fun f w h => h.1.1

/-! ## The pass -/

theorem literals_hasShape {values : List (Literal K)} (typed : ∀ m ∈ operands, Typed m)
    (literals : Node.literals? operands = some values) :
    List.Forall₂ Literal.HasShape values (operands.map Node.shape) := by
  have each := Node.forall₂_of_literals? literals
  clear literals
  induction each with
  | nil => exact .nil
  | cons literal _ ih =>
      rw [List.forall_mem_cons] at typed
      rcases eq_constant_of_literal? literal with ⟨id, rfl⟩
      cases typed.1 with
      | constant _ complete => exact .cons ⟨rfl, complete⟩ (ih typed.2)

/-- Folding a well-typed expression computes what is constant, and is never given up. -/
theorem foldNode_computes (typed : Typed n) :
    Lowers computedForm Registry.anyName [] others never
      (Registry.standard : Registry K).foldNode n := by
  refine foldNode_triple (P := Typed) (fun n h m hm => h.of_mem_operands hm) ?_ ?_ typed
  · intro n typed plain
    refine lowers_itself (Node.appliesOnly_of_plain plain) fun more here => ?_
    have computed : Computed n := Node.everywhere_of_plain plain
    exact ⟨here, rfl, typed, computed, computed.isConstant⟩
  · intro id s operands folded given typed _ below forms
    rcases typed.operator with ⟨o, rfl, shapes, _⟩
    have known := computedForms forms
    have fits := known.shapes.trans shapes
    have around : ∀ m ∈ folded, Node.Below given m :=
      FormRelation.forall_below (F := computedForm) forms
    refine foldApplication_triple (F := computedForm) forms below (fun _ _ _ _ => trivial) ?_ ?_ ?_
    · intro fold values hook literals
      rw [o.hooks_eq] at hook
      have shape := o.hasShape_value (fits ▸ literals_hasShape known.typed literals)
      rw [Operator.value_eq hook] at shape
      refine ⟨shape.shape, fun i more here => ⟨here, shape.shape, .constant i shape.complete, ?_, ?_⟩⟩
      · exact Node.everywhere_of_plain rfl
      · exact fun _ _ => rfl
    · rintro unfolded rfl more here
      refine ⟨here, rfl, typed, ?_, fun free cartesian => ?_⟩
      · exact Node.everywhere_application.2 ⟨variable_of_unfolded unfolded, known.computed⟩
      · exact absurd cartesian (not_isConstant_of_unfolded known unfolded free)
    · intro unfolded _
      refine (rebuild_computed known.typed known.computed fits (variable_of_unfolded unfolded)
        around).relax fun m w h => ⟨h.1, fun more here => ?_⟩
      rcases h.2 with ⟨shape, typed, computed⟩
      refine ⟨here, shape, typed, computed, fun free cartesian => ?_⟩
      exact absurd cartesian (not_isConstant_of_unfolded known unfolded free)

/-- A node that is its own form. -/
def itself : FormRelation K where
  holds given n m := Node.Below given m ∧ m = n
  below h := h.1
  mono sub h := ⟨h.1.mono sub, h.2⟩
  self h := ⟨h.1, rfl⟩

omit [Arithmetic K] [Numeral K] in
theorem eq_of_itself (forms : List.Forall₂ (itself.holds given) operands folded) :
    folded = operands := by
  induction forms with
  | nil => rfl
  | cons first _ ih => rw [first.2, ih]

/-- Where nothing is left to compute, folding comes to the node itself. -/
theorem foldNode_settles (typed : Typed n) (computed : Computed n) :
    Lowers itself Registry.anyName [] others never
      (Registry.standard : Registry K).foldNode n := by
  refine foldNode_triple (P := fun n => Typed n ∧ Computed n)
    (fun n h m hm => ⟨h.1.of_mem_operands hm, h.2.of_reaches (.of_mem_operands hm)⟩) ?_ ?_
    ⟨typed, computed⟩
  · intro n _ plain
    exact lowers_itself (Node.appliesOnly_of_plain plain) fun more here => ⟨here, rfl⟩
  · intro id s operands folded given h _ below forms
    rcases h.1.operator with ⟨o, rfl, _, _⟩
    obtain rfl := eq_of_itself forms
    have unfolded : (Registry.standard : Registry K).Unfolded o.signature folded :=
      unfolded_of_variable (Node.everywhere_application.1 h.2).1
    refine foldApplication_triple (F := itself) forms below (fun _ _ _ _ => trivial) ?_ ?_ ?_
    · intro fold values hook literals
      rcases unfolded with none | none
      · exact absurd (hook.symm.trans none) nofun
      · exact absurd (literals.symm.trans none) nofun
    · exact fun _ _ more here => ⟨here, rfl⟩
    · exact fun _ changed => absurd rfl changed

/-- Over a field, folded forms stand for the value of the expression. -/
theorem foldNode_denotes [Field K] [FieldArithmetic K] [AngleArithmetic K] {Φ : Prop}
    {ρ : Assignment K} (typed : Typed n) (fits : Φ → ρ.Fits n) :
    Lowers (loweredTo Φ ρ) Registry.anyName [] others never
      (Registry.standard : Registry K).foldNode n := by
  refine foldNode_triple (P := fun n => Typed n ∧ (Φ → ρ.Fits n))
    (fun n h m hm => ⟨h.1.of_mem_operands hm, fun hΦ => (h.2 hΦ).of_reaches (.of_mem_operands hm)⟩)
    ?_ ?_ ⟨typed, fits⟩
  · intro n ⟨typed, fits⟩ plain
    exact lowers_itself (Node.appliesOnly_of_plain plain) fun more here =>
      ⟨here, .of_typed typed fits⟩
  · intro id s operands folded given ⟨typed, fits⟩ _ below forms
    rcases typed.operator with ⟨o, rfl, shapes, _⟩
    have denotes := denotes_lowered forms
    rw [shapes] at denotes
    have around : ∀ m ∈ folded, Node.Below given m :=
      FormRelation.forall_below (F := loweredTo Φ ρ) forms
    have meant : o.value (operands.map (Node.value Standard.meaning ρ)) =
        (Node.application id o.signature operands).value Standard.meaning ρ :=
      (Node.value_application Standard.meaning ρ id o.signature operands).symm
    refine foldApplication_triple (F := loweredTo Φ ρ) forms below (fun _ _ _ _ => trivial) ?_ ?_ ?_
    · intro fold values hook literals
      rw [o.hooks_eq] at hook
      rcases denotes.of_literals literals with ⟨complete, sames⟩
      have shape := o.hasShape_value complete
      rw [Operator.value_eq hook] at shape
      refine ⟨shape.shape, fun i more here => ⟨here, (Denotes.constant i shape).of_eq fun hΦ => ?_⟩⟩
      rw [← meant, sames hΦ, Operator.value_eq hook]
    · exact fun _ _ more here => ⟨here, .of_typed typed fits⟩
    · intro _ _
      refine (rebuild_stands denotes around).relax fun m w h => ⟨h.2, fun more here => ?_⟩
      exact ⟨here, h.1.of_eq fun _ => meant⟩

/-! ## Folding -/

section

variable {F : FormRelation K} {e : Node K} {w : Workspace K}

/-- A pass that starts from an empty memo comes to a form, beside the expression. -/
theorem fold_triple (coherent : Node.Coherent [e])
    (folds : Lowers F Registry.anyName [] [e] never (Registry.standard : Registry K).foldNode e) :
    Triple (fun w => e.Older w.nextId) ((Registry.standard : Registry K).fold e)
      (fun m w => (∃ given, F.holds given e m) ∧ Node.Coherent [m] ∧ m.Older w.nextId) never := by
  have below : Node.Below ([] ++ [e]) e := .of_mem List.mem_cons_self
  refine Triple.starting ((folds [] (List.nil_subset []) below).weaken ?_ ?_ fun _ _ h => h)
  · rintro ⟨w, memo⟩ ⟨older, rfl⟩
    exact .empty ⟨coherent, List.forall_mem_singleton.2 older, nofun⟩
  · rintro m ⟨w, memo⟩ ⟨given, _, form, recalls⟩
    have here := (F.below form).mono (List.subset_append_left given [e])
    exact ⟨⟨given, form⟩, recalls.stock.coherent.of_below (List.forall_mem_singleton.2 here),
      recalls.stock.older_of_below here⟩

/-- What folding a well-typed expression comes to. -/
structure FoldsTo (e m : Node K) (next : NodeId) : Prop where
  shape : m.shape = e.shape
  typed : Typed m
  /-- No operator is applied to constants only, but for the way back. -/
  computed : ∀ id s operands, m.Reaches (.application id s operands) →
    (∀ k ∈ operands, k.isConstant = true) → s.name = "fromHomo"
  constant : LeafFree e → Cartesian e → m.isConstant = true
  lowered : LeafFree e → (∃ n w w', Typed n ∧ Node.Coherent [n] ∧ n.Older w.nextId ∧
    ((Registry.standard : Registry K).lower n).runIn w = (.ok e, w')) → m.isConstant = true
  again : ∀ w : Workspace K, next ≤ w.nextId →
    ∃ w', ((Registry.standard : Registry K).fold m).runIn w = (.ok m, w')
  value : ∀ [Field K] [FieldArithmetic K] [AngleArithmetic K], ∀ ρ : Assignment K, ρ.Fits e →
    ρ.Fits m ∧ m.value Standard.meaning ρ = e.value Standard.meaning ρ

/-- Folding a well-typed expression succeeds in any arithmetic, leaves nothing to compute and comes
to the same node when it is repeated; over a field it keeps the value. -/
theorem fold_computes (typed : e.WellTyped (Registry.standard : Registry K).Knows)
    (coherent : Node.Coherent [e]) (older : e.Older w.nextId) :
    ∃ m w', ((Registry.standard : Registry K).fold e).runIn w = (.ok m, w') ∧
      FoldsTo e m w'.nextId := by
  rcases (fold_triple coherent (foldNode_computes typed)).runIn_eq_ok older with
    ⟨m, w', run, ⟨given, form⟩, alone, after⟩
  have constant (free : LeafFree e) (cartesian : Cartesian e) : m.isConstant = true :=
    form.constant free cartesian
  refine ⟨m, w', run, form.shape, form.typed, ?_, constant, ?_, ?_, ?_⟩
  · intro id s operands below constants
    by_contra name
    rcases form.computed id s operands below name with ⟨k, hk, varies⟩
    exact absurd ((constants k hk).symm.trans varies) nofun
  · rintro free ⟨n, w, w', typed, coherent, older, run⟩
    have some_assignment : Assignment K := fun _ => .zero .scalar
    have lowered := (lower_triple (ρ := some_assignment) typed coherent
      (List.mem_singleton_self n)).of_runIn_eq_ok (List.forall_mem_singleton.2 older) run
    exact constant free lowered.2.primitive.cartesian
  · intro later le
    rcases (fold_triple alone (foldNode_settles form.typed form.computed)).runIn_eq_ok
      (w := later) (after.mono le) with ⟨k, w'', run', ⟨_, _, rfl⟩, _⟩
    exact ⟨w'', run'⟩
  · intro _ _ _ ρ fits
    have denotes := ((fold_triple coherent (foldNode_denotes (Φ := True) typed fun _ =>
      fits)).of_runIn_eq_ok older run).1
    rcases denotes with ⟨_, denotes⟩
    exact ⟨denotes.denotes.fits trivial, denotes.denotes.value trivial⟩

/-- The product of a sum of constants and a variable. -/
theorem fold_computes_product :
    let one : Node ℚ := .constant 4 (.scalar 1)
    let two : Node ℚ := .constant 5 (.scalar 2)
    let sum : Node ℚ := .application 6 ⟨.scalar, "+", [.scalar, .scalar]⟩ [one, two]
    let x : Node ℚ := .leaf 7 "x" .scalar
    let product : Node ℚ := .application 8 ⟨.scalar, "*", [.scalar, .scalar]⟩ [sum, x]
    product.WellTyped (Registry.standard : Registry ℚ).Knows ∧ Node.Coherent [product] ∧
      product.Older 9 ∧
      ∃ m w', ((Registry.standard : Registry ℚ).fold product).runIn ⟨9, #[]⟩ = (.ok m, w') ∧
        FoldsTo product m w'.nextId := by
  intro one two sum x product
  have typedSum : Typed sum :=
    typed_application (.addition .scalar (by decide)) 6 rfl
      (List.forall_mem_cons.2 ⟨.constant 4 rfl, List.forall_mem_singleton.2 (.constant 5 rfl)⟩)
  have typed : Typed product :=
    typed_application .multiplication 8 rfl
      (List.forall_mem_cons.2 ⟨typedSum, List.forall_mem_singleton.2 (.leaf 7 "x" .scalar)⟩)
  let nodes := [product, sum, x, one, two]
  have closed : ∀ n ∈ nodes, ∀ m ∈ n.operands, m ∈ nodes := by
    simp [nodes, product, sum, x, one, two]
  have distinct : (nodes.map Node.id).Nodup := by
    simp [nodes, product, sum, x, one, two]
  have early : ∀ n ∈ nodes, n.id < 9 := by
    simp [nodes, product, sum, x, one, two]
  have coherent : Node.Coherent [product] :=
    (Node.Coherent.of_closed closed distinct).of_subset (by simp [nodes])
  have older : product.Older 9 := fun y below =>
    early y (below.mem_of_closed closed List.mem_cons_self)
  exact ⟨typed, coherent, older, fold_computes (w := ⟨9, #[]⟩) typed coherent older⟩

end

end Standard

end SymbolicLinalg
