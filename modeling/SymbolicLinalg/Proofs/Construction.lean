import SymbolicLinalg.Proofs.Contract
import SymbolicLinalg.Proofs.Denotation

/-!
# Construction — applications of standard operators

What a recipe may take for granted of the nodes it builds is that a constant is what it was asked to
be, and that an application of a standard operator stands for the value of the operator.  These are
the terms `Standard.building`; the operators that may be applied are a parameter, since the
simplification of one operator applies others.

* `ensures_apply` and its instances: the rules for recipes on these terms;
* `carries_makeWith`: one level of construction keeps the terms, if simplification does on the terms
  of the level below.
-/

namespace SymbolicLinalg

namespace Standard

variable {K : Type} [Arithmetic K] [Numeral K]

/-- Which operators may be applied to which operands. -/
abbrev Permission (K : Type) :=
  Operator → List (Node K) → Prop

/-- Every operator may be applied. -/
def Permission.all : Permission K :=
  fun _ _ => True

/-- Only constants may be made. -/
def Permission.none : Permission K :=
  fun _ _ => False

/-- What an application comes to: a node that stands for the value of the operator.  A sine never
comes to a negation, so that negating it is not undone. -/
structure Applied (Φ : Prop) (ρ : Assignment K) (o : Operator) (values : List (Literal K))
    (n : Node K) : Prop where
  denotes : Denotes Φ ρ n o.signature.result (o.value values)
  positive : o = .sine → n.applies "-" = false

/-- The terms on which nodes are made. -/
def building (allowed : Permission K) (Φ : Prop) (ρ : Assignment K) :
    Recipe.Terms (Construction K) (Node K) where
  grant k p :=
    match k with
    | .constant v => v.Complete ∧ ∀ id, p (.constant id v)
    | .apply name operands =>
        ∃ (o : Operator) (values : List (Literal K)), o.signature.name = name ∧
          DenoteAll Φ ρ operands o.signature.operands values ∧ allowed o operands ∧
          ∀ n, Applied Φ ρ o values n → p n
    | .leaf _ _ | .applyFor _ _ _ => False
  mono {k p q} imp h := by
    cases k with
    | constant v => exact ⟨h.1, fun id => imp _ (h.2 id)⟩
    | apply name operands =>
        rcases h with ⟨o, values, rfl, denotes, allows, next⟩
        exact ⟨o, values, rfl, denotes, allows, fun n hn => imp n (next n hn)⟩
    | leaf | applyFor => exact h

/-! ## Rules -/

section

variable {κ σ : Type} {Φ : Prop} {ρ : Assignment K} {allowed : Permission K}
  {asks : Recipe.Terms κ σ} {post : List κ → Node K → Prop} {a b : Node K} {A B : Literal K}
  {s : Shape}

theorem ensures_constant {v : Literal K} (hv : v.HasShape s)
    (next : ∀ n, Denotes Φ ρ n s v → post [] n) :
    (Recipe.constant v).Ensures ⟨building allowed Φ ρ, asks⟩ post :=
  ⟨hv.complete, fun id => next _ (.constant id hv)⟩

theorem ensures_apply (o : Operator) {operands : List (Node K)} {values : List (Literal K)}
    (denotes : DenoteAll Φ ρ operands o.signature.operands values) (allows : allowed o operands)
    (next : ∀ n, Denotes Φ ρ n o.signature.result (o.value values) → post [] n) :
    (Recipe.apply o.signature.name operands).Ensures ⟨building allowed Φ ρ, asks⟩ post :=
  ⟨o, values, rfl, denotes, allows, fun n hn => next n hn.denotes⟩

end

/-! ## Levels of construction -/

/-- An operator that is found by its signature is built with its own definition. -/
theorem Operator.rebuild_eq (o : Operator) (operands : List (Node K)) :
    (Registry.standard : Registry K).rebuild o.signature operands =
      (Registry.standard : Registry K).build o.definition operands := by
  have same : (⟨o.signature, (Registry.standard : Registry K).hooks o.signature⟩ : Definition K) =
      o.definition := by
    rw [o.hooks_eq, ← o.definition_signature (K := K)]
  rw [Registry.rebuild, same]

section

variable {Φ : Prop} {ρ : Assignment K} {allowed deeper : Permission K}
  {inner : Construction K → Work K (Node K)}

/-- Whatever the `optimize` hook of an operator answers stands for the value of the operator. -/
def Simplifies (allowed : Permission K) (Φ : Prop) (ρ : Assignment K) (o : Operator)
    (operands : List (Node K)) (values : List (Literal K)) : Prop :=
  ∀ optimize, (o.definition : Definition K).hooks.optimize = some optimize →
    (optimize operands).Ensures ⟨building allowed Φ ρ, .none Empty Empty⟩
      fun _ n? => ∀ n ∈ n?, Applied Φ ρ o values n

/-- A way to make nodes that keeps the terms. -/
def Carries (allowed : Permission K) (Φ : Prop) (ρ : Assignment K)
    (inner : Construction K → Work K (Node K)) : Prop :=
  ∀ k p, (building allowed Φ ρ).grant k p →
    Triple (fun _ => True) (inner k) (fun n _ => p n) never

omit [Arithmetic K] [Numeral K] in
theorem mismatch?_eq_none {operands : List (Node K)} {shapes : List Shape} (position : Nat)
    (h : operands.map Node.shape = shapes) :
    Registry.mismatch? position operands shapes = none := by
  subst h
  induction operands generalizing position with
  | nil => rfl
  | cons n rest ih => simp [Registry.mismatch?, ih]

omit [Arithmetic K] [Numeral K] in
theorem checkOperands_eq_ok {s : Signature} {operands : List (Node K)}
    (h : operands.map Node.shape = s.operands) : Registry.checkOperands s operands = .ok () := by
  have length : operands.length = s.operands.length := by
    rw [← h, List.length_map]
  rw [Registry.checkOperands, if_neg (by simp [length]), mismatch?_eq_none 0 h]

omit [Arithmetic K] [Numeral K] in
theorem follow_triple {α : Type} {rule : Rule K α} {post : α → Prop}
    {terms : Recipe.Terms (Construction K) (Node K)}
    (carries : ∀ k p, terms.grant k p → Triple (fun _ => True) (inner k) (fun n _ => p n) never)
    (h : rule.Ensures ⟨terms, .none Empty Empty⟩ fun _ a => post a) :
    Triple (fun _ => True) (Registry.follow inner rule) (fun a _ => post a) never := by
  have carried : Triple (fun _ => True) (rule.run inner Empty.elim Work.refuse)
      (fun a _ => ∃ _ : List Empty, post a ∧ True) never :=
    h.triple (fun _ _ => True)
      (fun _ k p hk => (carries k p hk).relax fun n w hn => ⟨hn, trivial⟩) fun _ r => r.elim
  exact carried.relax fun a w ⟨_, ha, _⟩ => ha

omit [Arithmetic K] [Numeral K] in
theorem newConstant_triple {v : Literal K} {p : Node K → Prop} (h : ∀ id, p (.constant id v)) :
    Triple (fun _ => True) (Node.newConstant v) (fun n _ => p n) never :=
  Triple.bind (m := fun _ _ => True) (.fresh fun _ _ => trivial) fun id => .value fun _ _ => h id

/-- Building an operator comes to what its `optimize` hook answers, or to the application itself where
the hook declines. -/
theorem buildWith_of_simplify? {o : Operator} {operands : List (Node K)} {post : Node K → Prop}
    (shapes : operands.map Node.shape = o.signature.operands)
    (simplifies : Triple (fun _ => True) (Registry.simplify? inner o.definition operands)
      (fun n? _ => (n? = none → ∀ id, post (.application id o.signature operands)) ∧
        ∀ n ∈ n?, n.shape = o.signature.result ∧ post n) never) :
    Triple (fun _ => True) (Registry.buildWith inner o.definition operands)
      (fun n _ => post n) never := by
  have fits : Registry.checkOperands (o.definition : Definition K).signature operands = .ok () := by
    rw [o.definition_signature]
    exact checkOperands_eq_ok shapes
  rw [Registry.buildWith, fits]
  refine Triple.bind (m := fun _ _ => True) (.value fun _ => id) fun _ => simplifies.bind ?_
  rintro n? w ⟨fresh, answered⟩
  cases n? with
  | none =>
      have made := fresh rfl w.nextId
      rw [← o.definition_signature (K := K)] at made
      exact made
  | some n =>
      rcases answered n rfl with ⟨shape, holds⟩
      -- the answer has the shape of the result, so it is taken
      rw [← o.definition_signature (K := K)] at shape
      rw [Registry.settle, if_neg (not_not_intro shape)]
      exact holds

/-- The name and the shapes of the operands determine the operator that is built. -/
theorem makeWith_apply {o : Operator} {operands : List (Node K)} {post : Node K → Prop}
    (shapes : operands.map Node.shape = o.signature.operands)
    (built : Triple (fun _ => True) (Registry.buildWith inner o.definition operands)
      (fun n _ => post n) never) :
    Triple (fun _ => True)
      ((Registry.standard : Registry K).makeWith inner (.apply o.signature.name operands))
      (fun n _ => post n) never := by
  rw [Registry.makeWith, shapes, o.resolve_eq]
  refine Triple.bind (m := fun d _ => d = o.definition) (.value fun _ _ => rfl) ?_
  rintro _ w rfl
  exact built w trivial

/-- Applying an operator whose simplification is right comes to a node for its value. -/
theorem buildWith_triple (carries : Carries deeper Φ ρ inner) (o : Operator)
    {operands : List (Node K)} {values : List (Literal K)}
    (denotes : DenoteAll Φ ρ operands o.signature.operands values)
    (simplifies : Simplifies deeper Φ ρ o operands values) :
    Triple (fun _ => True) (Registry.buildWith inner o.definition operands)
      (fun n _ => Applied Φ ρ o values n) never := by
  -- without a rule that fires the application itself is made
  have fresh : ∀ id, Applied Φ ρ o values (.application id o.signature operands) := by
    intro id
    refine ⟨.application o id denotes, ?_⟩
    intro same
    rw [same]
    rfl
  -- a rule that fires answers with a node for the value
  have answered : Triple (fun _ => True) (Registry.simplify? inner o.definition operands)
      (fun n? _ => ∀ n ∈ n?, Applied Φ ρ o values n) never := by
    rw [Registry.simplify?]
    cases hook : (o.definition : Definition K).hooks.optimize with
    | none => exact .value fun _ _ n hn => absurd hn (Option.not_mem_none n)
    | some optimize => exact follow_triple carries (simplifies optimize hook)
  refine buildWith_of_simplify? denotes.shapes (answered.relax fun n? _ applied => ?_)
  exact ⟨fun _ => fresh, fun n hn => ⟨(applied n hn).denotes.shape, applied n hn⟩⟩

/-- One level of construction keeps the terms. -/
theorem carries_makeWith (carries : Carries deeper Φ ρ inner)
    (simplifies : ∀ o operands values, DenoteAll Φ ρ operands o.signature.operands values →
      allowed o operands → Simplifies deeper Φ ρ o operands values) :
    Carries allowed Φ ρ ((Registry.standard : Registry K).makeWith inner) := by
  intro k p h
  cases k with
  -- a rule makes constants and applications only
  | constant v => exact newConstant_triple h.2
  | apply name operands =>
      rcases h with ⟨o, values, rfl, denotes, allows, next⟩
      have built := buildWith_triple carries o denotes
        (simplifies o operands values denotes allows)
      exact makeWith_apply denotes.shapes (built.relax fun n _ => next n)
  | leaf | applyFor => exact h.elim

theorem carries_none (depth : Nat) :
    Carries .none Φ ρ ((Registry.standard : Registry K).makeWithin (depth + 1)) := by
  intro k p h
  cases k with
  | constant v => exact newConstant_triple h.2
  | apply name operands =>
      -- no operator is allowed at this level
      rcases h with ⟨_, _, _, _, impossible, _⟩
      exact impossible.elim
  | leaf | applyFor => exact h.elim

end

end Standard

end SymbolicLinalg
