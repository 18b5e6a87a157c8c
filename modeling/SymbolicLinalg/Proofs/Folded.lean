import SymbolicLinalg.Proofs.Everywhere
import SymbolicLinalg.Proofs.NormalForm
import SymbolicLinalg.Proofs.Operation

/-!
# Folded — scalar constants are computed at once

Applying an operator that lowering leaves alone to scalar constants comes to a constant, since its
`optimize` hook folds.  Expansions are built by applying operators, and an operand that is lowered to a
scalar constant was one before; so there are no such applications in lowered forms either.

* `Folded`: no plain operator is applied to scalar constants only;
* `make_folded`: construction keeps to folded expressions;
* `lowerNext_folded`: and so does lowering.
-/

namespace SymbolicLinalg

namespace Standard

variable {K : Type} {n m : Node K} {id : NodeId} {s : Signature} {given others operands : List (Node K)}

/-- Of the operands of a plain operator, if they are scalars, one is not a constant. -/
def Unfoldable (s : Signature) (operands : List (Node K)) : Prop :=
  IsPlain s.name → (∀ m ∈ operands, m.shape = .scalar) → ∃ m ∈ operands, m.isConstant = false

/-- No plain operator is applied to scalar constants only. -/
def Folded (n : Node K) : Prop :=
  ∀ id s operands, n.Reaches (.application id s operands) → Unfoldable s operands

theorem Folded.of_reaches (h : Folded n) (below : n.Reaches m) : Folded m :=
  Node.Everywhere.of_reaches h below

theorem folded_application :
    Folded (.application id s operands) ↔ Unfoldable s operands ∧ ∀ m ∈ operands, Folded m :=
  Node.everywhere_application

theorem folded_of_below (folded : ∀ m ∈ given, Folded m) (below : Node.Below given n) : Folded n :=
  Node.everywhere_of_below folded below

/-! ## Construction -/

variable [Arithmetic K] [Numeral K]

/-- A plain operator of scalars folds before anything else. -/
theorem Operator.folds {o : Operator} (plain : IsPlain o.signature.name)
    (scalars : ∀ s ∈ o.signature.operands, s = Shape.scalar) :
    ∃ fold rule, (o.definition : Definition K).hooks.optimize = some (foldingFirst fold rule) := by
  cases o with
  | axisRotation id r h => exact absurd plain (AxisRotation.not_isPlain h)
  | shift | axisScaling | fromHomogeneous => exact absurd (by decide) plain
  | axisAngleRotation => exact absurd (scalars .vec3 (by decide)) (by decide)
  | _ => exact ⟨_, _, rfl⟩

/-- An application to scalar constants only is not declined by the `optimize` hook. -/
theorem declines_unfoldable {make : Construction K → Work K (Node K)} {o : Operator}
    (shapes : operands.map Node.shape = o.signature.operands) :
    Declines Unfoldable make o operands := by
  by_cases declined : Unfoldable o.signature operands
  · exact .of_property declined
  · simp only [Unfoldable, not_forall, not_exists, not_and, Bool.not_eq_false] at declined
    rcases declined with ⟨plain, scalars, constant⟩
    have scalarShapes : ∀ t ∈ o.signature.operands, t = Shape.scalar := by
      rw [← shapes]
      exact List.forall_mem_map.2 scalars
    rcases o.folds (K := K) plain scalarShapes with ⟨fold, rule, hook⟩
    exact .of_constants hook constant

/-- Folded expressions come out of construction if they go in. -/
theorem make_folded :
    MakesEverywhere Registry.anyName Unfoldable (Registry.standard : Registry K).make :=
  make_everywhere trivial trivial fun _ _ _ _ shapes => declines_unfoldable shapes

/-! ## Lowering -/

/-- Lowered forms are folded, and no scalar becomes a constant. -/
structure FoldedForm (given : List (Node K)) (n m : Node K) : Prop where
  below : Node.Below given m
  shape : m.shape = n.shape
  folded : Folded m
  kept : m.shape = .scalar → m.isConstant = true → n.isConstant = true

def foldedForm : FormRelation K where
  holds := FoldedForm
  below h := h.below
  mono sub h := { h with below := h.below.mono sub }
  self h := { h with shape := rfl, kept := fun _ constant => constant }

section

variable {lowered : List (Node K)}

omit [Arithmetic K] [Numeral K]

theorem folded_forms (forms : List.Forall₂ (FoldedForm given) operands lowered) :
    ∀ m ∈ lowered, Folded m := by
  induction forms with
  | nil => exact fun m hm => absurd hm List.not_mem_nil
  | cons first _ ih => exact List.forall_mem_cons.2 ⟨first.folded, ih⟩

/-- Scalar constants have been lowered from scalar constants. -/
theorem constants_of_forms (forms : List.Forall₂ (FoldedForm given) operands lowered)
    (scalars : ∀ m ∈ lowered, m.shape = .scalar) :
    (∀ n ∈ operands, n.shape = .scalar) ∧
      ((∀ m ∈ lowered, m.isConstant = true) → ∀ n ∈ operands, n.isConstant = true) := by
  induction forms with
  | nil => exact ⟨fun n hn => absurd hn List.not_mem_nil, fun _ n hn => absurd hn List.not_mem_nil⟩
  | cons first _ ih =>
      rw [List.forall_mem_cons] at scalars
      rcases ih scalars.2 with ⟨shapes, constants⟩
      refine ⟨List.forall_mem_cons.2 ⟨first.shape.symm.trans scalars.1, shapes⟩, fun constant => ?_⟩
      rw [List.forall_mem_cons] at constant
      exact List.forall_mem_cons.2 ⟨first.kept scalars.1 constant.1, constants constant.2⟩

/-- Lowering the operands makes nothing foldable. -/
theorem unfoldable_of_forms (forms : List.Forall₂ (FoldedForm given) operands lowered)
    (h : Unfoldable s operands) : Unfoldable s lowered := by
  intro plain scalars
  rcases constants_of_forms forms scalars with ⟨shapes, constants⟩
  by_contra none
  simp only [not_exists, not_and, Bool.not_eq_false] at none
  rcases h plain shapes with ⟨n, hn, free⟩
  exact absurd (constants none n hn) (by simp [free])

end

/-- What is expanded is not a scalar. -/
theorem result_ne_scalar (high : ¬ (Registry.standard : Registry K).Keeps s operands) :
    s.result ≠ .scalar := by
  have table : ∀ s ∈ signatures, ¬ IsPlain s.name → s.result ≠ .scalar := by
    decide +kernel
  -- an operator that is not listed has no hooks, and a plain one has none that lowers it
  by_cases known : ∃ o : Operator, o.signature = s
  · rcases known with ⟨o, rfl⟩
    refine table _ (signature_mem_signatures o) fun plain => high ?_
    rcases o.hooks_of_isPlain (K := K) plain with ⟨replace, expand⟩
    rw [Registry.Keeps, o.hooks_eq, replace, expand]
    exact ⟨rfl, nofun⟩
  · refine absurd ⟨?_, ?_⟩ high
    · by_contra some_rule
      rcases Option.ne_none_iff_exists'.1 some_rule with ⟨rule, hook⟩
      rcases operator_of_hook (·.replace) rfl hook with ⟨o, same, _⟩
      exact known ⟨o, same⟩
    · intro rule hook
      rcases operator_of_hook (·.expand) rfl hook with ⟨o, same, _⟩
      exact absurd ⟨o, same⟩ known

theorem checkedExpansion?_folded (folded : ∀ m ∈ operands, Folded m) (s : Signature) :
    Triple (fun _ => True) ((Registry.standard : Registry K).checkedExpansion? s operands)
      (fun n? _ => ∀ n ∈ n?, Folded n) fun _ _ => True := by
  have functional : (Registry.standard : Registry K).Functional [] := standard_functional
  have below : ∀ m ∈ operands, Node.Below operands m := fun m hm => .of_mem hm
  have expands : Triple (fun _ => True) ((Registry.standard : Registry K).expansion? s operands)
      (fun found _ => ∀ p ∈ found, Folded p.2) fun _ _ => True := by
    rw [Registry.expansion?]
    cases replaces : ((Registry.standard : Registry K).hooks s).replace with
    | some rule =>
        have drawn := functional.replace replaces (List.nil_subset operands) below
        refine (follow_everywhere make_folded drawn folded).bind fun n => .value fun w hs p hp => ?_
        rcases hs with ⟨now, hn, folded⟩
        rw [← Option.some.inj hp]
        exact folded_of_below folded hn
    | none =>
        cases expands : ((Registry.standard : Registry K).hooks s).expand with
        | none => exact .value fun _ _ p hp => absurd hp (Option.not_mem_none p)
        | some rule =>
            have drawn := functional.expand expands (List.nil_subset operands) below
            refine (follow_everywhere make_folded drawn folded).bind fun n? => .value fun w hs p hp => ?_
            rcases hs with ⟨now, offered, folded⟩
            rcases Option.map_eq_some_iff.1 hp with ⟨n, hn, rfl⟩
            exact folded_of_below folded (offered n hn)
  rw [Registry.checkedExpansion?]
  refine expands.bind fun found => ?_
  cases found with
  | none => exact .value fun _ _ n hn => absurd hn (Option.not_mem_none n)
  | some p =>
      rcases p with ⟨hook, n⟩
      dsimp only
      split
      · exact .refuse fun _ _ => trivial
      · intro w hs m hm
        rw [← Option.some.inj hm]
        exact hs _ rfl

theorem lowerWith_folded {again : Node K → Pass K (Node K)}
    (nested : ∀ n, Folded n →
      Lowers foldedForm Registry.anyName [] others (fun _ _ => True) again n) (folded : Folded n) :
    Lowers foldedForm Registry.anyName [] others (fun _ _ => True)
      ((Registry.standard : Registry K).lowerWith again) n := by
  refine lowerWith_triple (P := Folded) (fun n h m hm => h.of_reaches (.of_mem_operands hm)) ?_ ?_
    folded
  · intro n h plain
    exact lowers_itself (Node.appliesOnly_of_plain plain) fun _ here => ⟨here, rfl, h, fun _ => id⟩
  · intro id s operands lowered given h _ below forms
    rcases folded_application.1 h with ⟨unfoldable, parts⟩
    have belowLowered := FormRelation.forall_below (F := foldedForm) forms
    have asked : Triple (fun w => Stock Registry.anyName given others w.nextId)
        ((Registry.standard : Registry K).checkedExpansion? s lowered)
        (fun n? w => Rewritten Registry.standard s lowered given others w.nextId n? ∧
          ∀ n ∈ n?, Folded n) fun _ _ => True :=
      ((checkedExpansion?_rewrites standard_functional (List.nil_subset given) belowLowered).both
        (checkedExpansion?_folded (folded_forms forms) s)).weaken (fun _ stock => ⟨stock, trivial⟩)
          (fun _ _ found => found) fun _ _ _ => trivial
    let answer (n? : Option (Node K)) : Prop :=
      ∀ n ∈ n?, (n.shape = s.result ∧ s.result ≠ .scalar) ∧ Folded n
    refine rewrite_triple (F := foldedForm) answer forms below (List.nil_subset given)
      (fun memo => asked.weaken (fun w h => h.stock) ?_ fun _ _ _ => trivial) (fun _ => trivial)
      ?_ ?_ ?_
    · rintro n? w ⟨rewritten, offered⟩
      cases n? with
      | none => exact ⟨offered_none, rewritten.2⟩
      | some n =>
          rcases rewritten with ⟨high, shape, stock⟩
          refine ⟨fun m hm => ⟨?_, offered m hm⟩, stock⟩
          exact ⟨Option.some.inj hm ▸ shape, result_ne_scalar high⟩
    · intro _ i more _ here
      have made : Folded (.application i s lowered) :=
        folded_application.2 ⟨unfoldable_of_forms forms unfoldable, folded_forms forms⟩
      exact ⟨here, rfl, made, fun _ constant => constant⟩
    · exact fun n offered => nested n (offered n rfl).2
    · intro n m more offered form
      rcases (offered n rfl).1 with ⟨shape, high⟩
      have result : m.shape = s.result := form.shape.trans shape
      exact ⟨form.below, result, form.folded, fun scalar => absurd (result.symm.trans scalar) high⟩

/-- Lowering comes to folded forms. -/
theorem lowerNext_folded (folded : Folded n) :
    Lowers foldedForm Registry.anyName [] others (fun _ _ => True)
      (Registry.standard : Registry K).lowerNext n :=
  lowerNext_triple (fun _ nested _ => lowerWith_folded nested) (fun _ _ _ _ => trivial) folded

end Standard

end SymbolicLinalg
