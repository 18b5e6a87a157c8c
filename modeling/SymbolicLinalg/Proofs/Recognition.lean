import SymbolicLinalg.Proofs.Construction
import SymbolicLinalg.Proofs.Extension
import SymbolicLinalg.Proofs.Hooks
import SymbolicLinalg.Proofs.Rational

/-!
# Recognition — standard operators in registries with other operators

Three rules of simplification look through an operand: a negation undoes a negation, a transposition a
transposition, and a selector takes an operand of a constructor.  They recognise the operand by the
name of the operator that was applied there and by the number of its operands.  In a registry with
other operators of these names the operand may be something else: the node below it may have another
shape, or may not be there.

* `Operator.seenThrough`: what simplification answers with because of the look of an operand;
* `apply_succeeds_iff`: an application over operands that fit succeeds, and comes to a node of the
  shape of the result, exactly if what is seen through an operand is a node of this shape.
-/

namespace SymbolicLinalg

namespace Standard

variable {K : Type} [Arithmetic K]

/-- What stands below a node that looks like a negation. -/
def belowMinus (a : Node K) : Option (Option (Node K)) :=
  if a.applies "-" && a.operands.length == 1 then some a.operands.head? else none

/-- What simplification answers with because of the name that is applied in an operand: the node at a
place below it, if there is one.  The difference of zero and a scalar is a negation. -/
def Operator.seenThrough (o : Operator) (operands : List (Node K)) : Option (Option (Node K)) :=
  match o, operands with
  | .negation, [a] => belowMinus a
  | .subtraction s _, [a, b] => if s.isScalar && a.isZero then belowMinus b else none
  | .transposition _ _, [a] => if a.applies "trans" then some a.operands.head? else none
  | .selector s _ i _, [a] =>
      if a.applies s.name && a.operands.length == s.size then some a.operands[i]? else none
  | _, _ => none

/-- What is seen through an operand is a node of a shape. -/
abbrev Seen (s : Shape) (seen? : Option (Option (Node K))) : Prop :=
  ∀ seen ∈ seen?, seen.map Node.shape = some s

/-- The application is given up because what is seen through an operand is not a node of the shape of
the result.  Where it is a node, the answer of an `optimize` hook is refused. -/
def Misled (s : Shape) (seen? : Option (Option (Node K))) (f : Fault) : Prop :=
  ∃ seen ∈ seen?, seen.map Node.shape ≠ some s ∧
    ∃ e, f = .error e ∧ ∀ m ∈ seen, ∃ t, e = .wrongResult t "optimize" m.shape

variable {o : Operator} {operands : List (Node K)} {a b : Node K} {s : Shape}

/-! ## Constants are not seen through -/

section

omit [Arithmetic K]

theorem eq_constant_of_literal? {v : Literal K} (literal : a.literal? = some v) :
    ∃ id, a = .constant id v := by
  cases a with
  | constant id w =>
      cases literal
      exact ⟨id, rfl⟩
  | leaf | application => exact absurd literal nofun

theorem shapes_of_literals? {values : List (Literal K)}
    (literals : Node.literals? operands = some values) :
    values.map Literal.shape = operands.map Node.shape := by
  have each := Node.forall₂_of_literals? literals
  clear literals
  induction each with
  | nil => rfl
  | cons literal _ ih =>
      rcases eq_constant_of_literal? literal with ⟨id, rfl⟩
      rw [List.map_cons, List.map_cons, ih, Node.shape_constant]

theorem applies_of_literals? {values : List (Literal K)}
    (literals : Node.literals? operands = some values) (name : String) :
    ∀ a ∈ operands, a.applies name = false := by
  have each := Node.forall₂_of_literals? literals
  clear literals
  induction each with
  | nil => exact fun a ha => absurd ha List.not_mem_nil
  | cons literal _ ih =>
      rcases eq_constant_of_literal? literal with ⟨id, rfl⟩
      exact List.forall_mem_cons.2 ⟨rfl, ih⟩

theorem belowMinus_eq_none (plain : a.applies "-" = false) : belowMinus a = none := by
  rw [belowMinus, plain]
  rfl

end

omit [Arithmetic K] in
/-- A minus sign over one operand has something below it. -/
theorem belowMinus_ne_missing (a : Node K) : belowMinus a ≠ some none := by
  intro missing
  rcases Option.ite_none_right_eq_some.1 missing with ⟨minus, bare⟩
  have one := (Bool.and_eq_true_iff.1 minus).2
  rw [List.head?_eq_none_iff.1 (Option.some.inj bare)] at one
  exact absurd one nofun

omit [Arithmetic K] in
theorem seen_none : Seen s (none : Option (Option (Node K))) :=
  nofun

omit [Arithmetic K] in
theorem seen_some (h : a.shape = s) : Seen s (some (some a)) := by
  rintro _ ⟨⟩
  exact congrArg some h

theorem applies_of_isZero (zero : a.isZero = true) (name : String) : a.applies name = false := by
  cases a with
  | constant => rfl
  | leaf | application => exact absurd zero nofun

theorem seenThrough_of_literals? {values : List (Literal K)}
    (literals : Node.literals? operands = some values) : o.seenThrough operands = none := by
  have plain := applies_of_literals? literals
  rw [Operator.seenThrough.eq_def]
  split
  · exact belowMinus_eq_none (plain _ _ (by simp))
  · rw [belowMinus_eq_none (plain _ _ (by simp)), ite_self]
  · rw [plain _ _ (by simp)]
    rfl
  · rw [plain _ _ (by simp)]
    rfl
  · rfl

/-- A minus sign is seen through only over one operand, and a constructor only over its components. -/
theorem transposition_of_missing (missing : o.seenThrough operands = some none) :
    ∃ s h a, o = .transposition s h ∧ operands = [a] ∧ a.applies "trans" = true ∧
      a.operands = [] := by
  rw [Operator.seenThrough.eq_def] at missing
  split at missing
  · exact absurd missing (belowMinus_ne_missing _)
  · split at missing
    · exact absurd missing (belowMinus_ne_missing _)
    · cases missing
  -- of the three rules only this one does not count the operands
  · rename_i s h a
    rcases Option.ite_none_right_eq_some.1 missing with ⟨twice, bare⟩
    exact ⟨s, h, a, rfl, rfl, twice, List.head?_eq_none_iff.1 (Option.some.inj bare)⟩
  · rename_i lt a
    rcases Option.ite_none_right_eq_some.1 missing with ⟨component, bare⟩
    have size := (Bool.and_eq_true_iff.1 component).2
    have short := List.getElem?_eq_none_iff.1 (Option.some.inj bare)
    rw [eq_of_beq size] at short
    exact absurd lt (by omega)
  · cases missing

/-! ## Simplification -/

theorem exists_pair_of_map_eq {α β : Type} {f : α → β} {l : List α} {x y : β}
    (h : l.map f = [x, y]) : ∃ a b, l = [a, b] ∧ f a = x ∧ f b = y := by
  simpa [List.map_eq_cons_iff, and_assoc, and_left_comm] using h

/-- The terms on which only constants are made. -/
def constants : Recipe.Terms (Construction K) (Node K) where
  grant k p :=
    match k with
    | .constant v => ∀ id, p (.constant id v)
    | .leaf _ _ | .apply _ _ | .applyFor _ _ _ => False
  mono {k p q} imp h := by
    cases k with
    | constant v => exact fun id => imp (.constant id v) (h id)
    | leaf | apply | applyFor => exact h

/-- The answer is what is seen through an operand, or both have the shape of the result. -/
def Suggested (o : Operator) (operands : List (Node K)) (n? : Option (Node K)) : Prop :=
  (∃ n, n? = some n ∧ o.seenThrough operands = some (some n)) ∨
    (∀ n ∈ n?, n.shape = o.signature.result) ∧ Seen o.signature.result (o.seenThrough operands)

/-- Where nothing is seen through an operand, an answer of the shape of the result will do. -/
theorem suggested_of_shape {n? : Option (Node K)} (none : o.seenThrough operands = none)
    (shape : ∀ n ∈ n?, n.shape = o.signature.result) : Suggested o operands n? :=
  .inr ⟨shape, none ▸ seen_none⟩

/-- A rule that answers with what it sees through an operand, wherever it applies. -/
theorem suggested_ite {p : Prop} [Decidable p] {n? : Option (Node K)}
    (present : o.seenThrough operands ≠ some none)
    (seen : o.seenThrough operands = if p then some n? else none) :
    Suggested o operands (if p then n? else none) := by
  by_cases applies : p
  · rw [if_pos applies] at seen ⊢
    cases n? with
    | none => exact absurd seen present
    | some n => exact .inl ⟨n, rfl, seen⟩
  · rw [if_neg applies] at seen ⊢
    exact suggested_of_shape seen offered_none

omit [Arithmetic K] in
theorem ensures_constantOfShape {v : Literal K} (shape : v.shape = s) :
    (some <$> Recipe.constant v : Rule K (Option (Node K))).Ensures ⟨constants, .none Empty Empty⟩
      fun _ n? => ∀ n ∈ n?, n.shape = s :=
  fun _ => offered_some shape

omit [Arithmetic K] in
theorem ensures_ite {p : Prop} [Decidable p] {rule other : Rule K (Option (Node K))}
    {c : Recipe.Contract K Empty Empty} {post : List Empty → Option (Node K) → Prop}
    (first : rule.Ensures c post) (second : other.Ensures c post) :
    (if p then rule else other).Ensures c post := by
  split
  · exact first
  · exact second

variable [Numeral K]

/-- Operands of the shapes that an operator takes fold to a literal of the shape of its result. -/
theorem Operator.shape_fold (o : Operator) {fold : List (Literal K) → Literal K}
    (folds : (o.definition : Definition K).hooks.fold = some fold) {values : List (Literal K)}
    (shapes : values.map Literal.shape = o.signature.operands) :
    (fold values).shape = o.signature.result := by
  cases o with
  | addition | subtraction | multiplication | division =>
      rcases exists_pair_of_map_eq shapes with ⟨a, b, rfl, ha, -⟩
      cases folds
      exact ha
  | negation | cosine | sine | transposition =>
      rcases List.map_eq_singleton_iff.1 shapes with ⟨a, rfl, ha⟩
      cases folds
      exact ha
  | scaling =>
      rcases exists_pair_of_map_eq shapes with ⟨a, b, rfl, -, hb⟩
      cases folds
      exact hb
  | innerProduct | matrixProduct | columnProduct | outerProduct =>
      rcases exists_pair_of_map_eq shapes with ⟨a, b, rfl, -, -⟩
      cases folds
      rfl
  | axisAngleRotation =>
      rcases exists_pair_of_map_eq shapes with ⟨axis, angle, rfl, -, -⟩
      cases folds
      change (rodrigues axis (angle.component 0)).shape = .mat44
      rw [rodrigues]
      split <;> rfl
  | selector | axisRotation =>
      rcases List.map_eq_singleton_iff.1 shapes with ⟨a, rfl, ha⟩
      cases folds
      rfl
  | constructor | shift | axisScaling =>
      cases folds
      rfl
  | fromHomogeneous => cases folds

omit [Numeral K] in
theorem ensures_suggested {rule : Rule K (Option (Node K))} (none : o.seenThrough operands = none)
    (h : rule.Ensures ⟨constants, .none Empty Empty⟩
      fun _ n? => ∀ n ∈ n?, n.shape = o.signature.result) :
    rule.Ensures ⟨constants, .none Empty Empty⟩ fun _ n? => Suggested o operands n? :=
  h.mono fun _ _ => suggested_of_shape none

section

variable (shapes : operands.map Node.shape = o.signature.operands)

include shapes

theorem suggested_foldingFirst {fold : List (Literal K) → Literal K}
    {rule : List (Node K) → Rule K (Option (Node K))}
    (folds : (o.definition : Definition K).hooks.fold = some fold)
    (h : (rule operands).Ensures ⟨constants, .none Empty Empty⟩
      fun _ n? => Suggested o operands n?) :
    (foldingFirst fold rule operands).Ensures ⟨constants, .none Empty Empty⟩
      fun _ n? => Suggested o operands n? := by
  rw [foldingFirst]
  cases literals : Node.literals? operands with
  | none => exact h
  | some values =>
      -- constants apply no operator, so none of them is seen through
      have shape := o.shape_fold folds ((shapes_of_literals? literals).trans shapes)
      exact fun _ => suggested_of_shape (seenThrough_of_literals? literals) (offered_some shape)

/-- Apart from differences, simplification makes nothing but constants.  It is refused only where an
operand should be seen through and has nothing below it. -/
theorem suggested_optimize (ne : ∀ s h, o ≠ .subtraction s h)
    (present : o.seenThrough operands ≠ some none)
    {optimize : List (Node K) → Rule K (Option (Node K))}
    (hook : (o.definition : Definition K).hooks.optimize = some optimize) :
    (optimize operands).Ensures ⟨constants, .none Empty Empty⟩
      fun _ n? => Suggested o operands n? := by
  cases o with
  | addition s h =>
      cases hook
      refine suggested_foldingFirst shapes rfl ?_
      rcases exists_pair_of_map_eq shapes with ⟨a, b, rfl, ha, hb⟩
      exact suggested_of_shape rfl
        (offered_ite (offered_some hb) (offered_ite (offered_some ha) offered_none))
  | subtraction s h => exact absurd rfl (ne s h)
  | negation =>
      cases hook
      refine suggested_foldingFirst shapes rfl ?_
      rcases List.map_eq_singleton_iff.1 shapes with ⟨a, rfl, -⟩
      exact suggested_ite present rfl
  | multiplication =>
      cases hook
      refine suggested_foldingFirst shapes rfl ?_
      rcases exists_pair_of_map_eq shapes with ⟨a, b, rfl, ha, hb⟩
      exact suggested_of_shape rfl (offered_ite (offered_some ha) (offered_ite (offered_some hb)
        (offered_ite (offered_some hb) (offered_ite (offered_some ha) offered_none))))
  | division =>
      cases hook
      refine suggested_foldingFirst shapes rfl ?_
      rcases exists_pair_of_map_eq shapes with ⟨a, b, rfl, ha, -⟩
      exact suggested_of_shape rfl (offered_ite (offered_some ha) offered_none)
  | cosine | sine | constructor =>
      cases hook
      exact suggested_foldingFirst shapes rfl (suggested_of_shape rfl offered_none)
  | scaling s h =>
      cases hook
      refine suggested_foldingFirst shapes rfl ?_
      rcases exists_pair_of_map_eq shapes with ⟨a, b, rfl, -, hb⟩
      refine ensures_suggested rfl ?_
      exact ensures_ite (ensures_constantOfShape rfl) (ensures_ite (offered_some hb) offered_none)
  | innerProduct s h | outerProduct m v h =>
      cases hook
      refine suggested_foldingFirst shapes rfl ?_
      rcases exists_pair_of_map_eq shapes with ⟨a, b, rfl, -, -⟩
      refine ensures_suggested rfl ?_
      exact ensures_ite (ensures_constantOfShape rfl) offered_none
  | selector s h i lt =>
      cases hook
      refine suggested_foldingFirst shapes rfl ?_
      rcases List.map_eq_singleton_iff.1 shapes with ⟨a, rfl, -⟩
      exact suggested_ite present rfl
  | transposition s h =>
      cases hook
      refine suggested_foldingFirst shapes rfl ?_
      rcases List.map_eq_singleton_iff.1 shapes with ⟨a, rfl, -⟩
      rw [onOne]
      split
      · rename_i twice
        have seen : (Operator.transposition s h).seenThrough [a] = some a.operands.head? :=
          if_pos twice
        rw [firstOperand]
        split
        · rename_i n below rest
          rw [rest] at seen
          exact .inl ⟨n, rfl, seen⟩
        · rename_i bare
          rw [bare] at seen
          exact absurd seen present
      · rename_i once
        exact suggested_of_shape (if_neg once) offered_none
  | matrixProduct s h =>
      cases hook
      refine suggested_foldingFirst shapes rfl ?_
      rcases exists_pair_of_map_eq shapes with ⟨a, b, rfl, ha, hb⟩
      exact suggested_of_shape rfl
        (offered_ite (offered_some ha) (offered_ite (offered_some hb) offered_none))
  | columnProduct m v h =>
      cases hook
      refine suggested_foldingFirst shapes rfl ?_
      rcases exists_pair_of_map_eq shapes with ⟨a, b, rfl, -, hb⟩
      refine ensures_suggested rfl ?_
      exact ensures_ite (ensures_constantOfShape rfl) (offered_ite (offered_some hb) offered_none)
  | axisRotation id r h =>
      cases hook
      rcases List.map_eq_singleton_iff.1 shapes with ⟨a, rfl, -⟩
      refine ensures_suggested rfl ?_
      exact ensures_ite (ensures_constantOfShape rfl) offered_none
  | shift =>
      cases hook
      refine ensures_suggested rfl ?_
      exact ensures_ite (ensures_constantOfShape rfl) offered_none
  | axisScaling =>
      cases hook
      refine ensures_suggested rfl ?_
      exact ensures_ite (ensures_constantOfShape rfl)
        (ensures_ite (ensures_constantOfShape rfl) offered_none)
  | axisAngleRotation =>
      cases hook
      rcases exists_pair_of_map_eq shapes with ⟨axis, angle, rfl, -, -⟩
      refine ensures_suggested rfl ?_
      exact ensures_ite (ensures_constantOfShape rfl) offered_none
  | fromHomogeneous => cases hook

end

/-! ## Application -/

/-- Applying an operator comes to a node of the shape of its result, unless what is seen through an
operand is not a node of this shape. -/
def Comes (o : Operator) (operands : List (Node K)) (work : Work K (Node K)) : Prop :=
  Triple (fun _ => True) work
    (fun n _ => n.shape = o.signature.result ∧
      Seen o.signature.result (o.seenThrough operands))
    fun f _ => Misled o.signature.result (o.seenThrough operands) f

theorem settle_comes {n? : Option (Node K)} (suggested : Suggested o operands n?) :
    Comes o operands (Registry.settle o.definition operands n?) := by
  have result : (o.definition : Definition K).signature.result = o.signature.result := by
    rw [o.definition_signature]
  intro w _
  cases n? with
  | none =>
      rcases suggested with ⟨n, none, -⟩ | ⟨-, shape⟩
      · exact absurd none nofun
      · exact ⟨result, shape⟩
  | some n =>
      rw [Registry.settle, result]
      split
      · rename_i differs
        rcases suggested with ⟨m, same, seen⟩ | ⟨shape, -⟩
        · obtain rfl : n = m := Option.some.inj same
          refine ⟨some n, seen, fun shape => differs (Option.some.inj shape), _, rfl, ?_⟩
          exact offered_some ⟨_, rfl⟩
        · exact absurd (shape n rfl) differs
      · rename_i same
        refine ⟨not_not.1 same, ?_⟩
        rcases suggested with ⟨m, is, seen⟩ | ⟨-, shape⟩
        · obtain rfl : n = m := Option.some.inj is
          exact seen ▸ seen_some (not_not.1 same)
        · exact shape

section

variable {inner : Construction K → Work K (Node K)} {extended : Registry K}
  (shapes : operands.map Node.shape = o.signature.operands)

include shapes

theorem buildWith_comes
    (simplify : Triple (fun _ => True) (Registry.simplify? inner o.definition operands)
      (fun n? _ => Suggested o operands n?)
      fun f _ => Misled o.signature.result (o.seenThrough operands) f) :
    Comes o operands (Registry.buildWith inner o.definition operands) := by
  have fits : Registry.checkOperands (o.definition : Definition K).signature operands = .ok () := by
    rw [o.definition_signature]
    exact checkOperands_eq_ok shapes
  rw [Registry.buildWith, fits]
  refine Triple.bind (m := fun _ _ => True) (.value fun _ => id) fun _ => simplify.bind fun n? => ?_
  exact fun w suggested => settle_comes suggested w trivial

/-- The name and the operands of a standard operator resolve to it. -/
theorem makeWith_comes (h : Registry.standard.Extends extended)
    (built : Comes o operands (Registry.buildWith inner o.definition operands)) :
    Comes o operands (extended.makeWith inner (.apply o.signature.name operands)) := by
  rw [Registry.makeWith, shapes, h.resolve_eq o.resolve_eq]
  exact Triple.bind (m := fun d _ => d = o.definition) (.value fun _ _ => rfl)
    fun d w same => same ▸ built w trivial

/-- Only a transposition may find nothing below its operand, and is refused then. -/
theorem missing_misled (missing : o.seenThrough operands = some none)
    {optimize : List (Node K) → Rule K (Option (Node K))}
    (hook : (o.definition : Definition K).hooks.optimize = some optimize) :
    Triple (fun _ => True) (Registry.follow inner (optimize operands))
      (fun n? _ => Suggested o operands n?)
      fun f _ => Misled o.signature.result (o.seenThrough operands) f := by
  have literals : Node.literals? operands = none := by
    by_contra some
    rcases Option.ne_none_iff_exists'.1 some with ⟨values, literals⟩
    exact absurd (missing.symm.trans (seenThrough_of_literals? literals)) nofun
  have misled (e : Error) : Misled o.signature.result (o.seenThrough operands) (.error e) :=
    ⟨none, missing, nofun, e, rfl, nofun⟩
  rcases transposition_of_missing missing with ⟨s, known, a, rfl, rfl, twice, bare⟩
  cases hook
  rw [foldingFirst, literals]
  change Triple _ (Registry.follow inner
    (if a.applies "trans" then some <$> firstOperand "trans" a else return none)) _ _
  rw [if_pos twice, firstOperand, bare]
  exact Triple.refuse fun _ _ => misled _

theorem buildWithin_comes (ne : ∀ s h, o ≠ .subtraction s h) (depth : Nat) :
    Comes o operands
      (Registry.buildWith (extended.makeWithin (depth + 1)) o.definition operands) := by
  refine buildWith_comes shapes ?_
  rw [Registry.simplify?]
  cases hook : (o.definition : Definition K).hooks.optimize with
  | none =>
      have none : o.seenThrough operands = none := by
        cases o with
        | fromHomogeneous => rfl
        | _ => cases hook
      exact .value fun _ _ => suggested_of_shape none offered_none
  | some optimize =>
      -- a rule that finds nothing below its operand is refused before it makes anything
      by_cases present : o.seenThrough operands = some none
      · exact missing_misled shapes present hook
      have makes (k : Construction K) (p : Node K → Prop) (granted : constants.grant k p) :
          Triple (fun _ => True) (extended.makeWithin (depth + 1) k) (fun n _ => p n) never := by
        cases k with
        | constant v => exact newConstant_triple granted
        | leaf | apply | applyFor => exact granted.elim
      exact (follow_triple makes (suggested_optimize shapes ne present hook)).weaken (fun _ => id)
        (fun _ _ => id) fun _ _ => False.elim

theorem makeWithin_comes (h : Registry.standard.Extends extended)
    (ne : ∀ s h, o ≠ .subtraction s h) (depth : Nat) :
    Comes o operands (extended.makeWithin (depth + 2) (.apply o.signature.name operands)) :=
  makeWith_comes shapes h (buildWithin_comes shapes ne depth)

end

variable {extended : Registry K}

/-- The negative of a node, where the negation of a scalar may see through its operand. -/
theorem someNegated_triple (h : Registry.standard.Extends extended) (known : s ≠ .genericScalar)
    (hb : b.shape = s) (depth : Nat) :
    Triple (fun _ => True)
      (Registry.follow (extended.makeWithin (depth + 2)) (some <$> negated s b))
      (fun n? _ => (∀ n ∈ n?, n.shape = s) ∧
        Seen s (if s.isScalar then belowMinus b else none))
      fun f _ => Misled s (if s.isScalar then belowMinus b else none) f := by
  rw [negated]
  cases scalar : s.isScalar with
  | true =>
      obtain rfl : s = .scalar := by
        cases s <;> first | rfl | exact absurd rfl known | exact absurd scalar Bool.noConfusion
      have fits : [b].map Node.shape = [.scalar] := by rw [List.map_singleton, hb]
      have negation : Comes .negation [b] (extended.makeWithin (depth + 2) (.apply "-" [b])) :=
        makeWithin_comes (o := .negation) fits h (fun _ _ => Operator.noConfusion) depth
      exact Triple.bind negation fun n => .value fun _ hn => ⟨offered_some hn.1, hn.2⟩
  | false =>
      have scaling (factor : Node K) (hfactor : factor.shape = .scalar) :
          Comes (.scaling s scalar) [factor, b]
            (extended.makeWithin (depth + 2) (.apply "*" [factor, b])) := by
        have fits : [factor, b].map Node.shape = [.scalar, s] := by
          rw [List.map_cons, List.map_singleton, hfactor, hb]
        exact makeWithin_comes (o := .scaling s scalar) fits h (fun _ _ => Operator.noConfusion) depth
      refine Triple.bind (m := fun factor _ => factor.shape = .scalar)
        ((newConstant_triple fun _ => rfl).weaken (fun _ => id) (fun _ _ => id)
          fun _ _ => False.elim) fun factor w hfactor => ?_
      exact Triple.bind (scaling factor hfactor)
        (fun n => .value fun _ hn => ⟨offered_some hn.1, seen_none⟩) w trivial

theorem buildDifference_comes {known : s ≠ .genericScalar} (h : Registry.standard.Extends extended)
    (shapes : operands.map Node.shape = [s, s]) (depth : Nat) :
    Comes (.subtraction s known) operands (Registry.buildWith (extended.makeWithin (depth + 2))
      (Operator.subtraction s known).definition operands) := by
  refine buildWith_comes (o := .subtraction s known) shapes ?_
  rcases exists_pair_of_map_eq shapes with ⟨a, b, rfl, ha, hb⟩
  change Triple _ (Registry.follow _ (foldingFirst _ _ [a, b])) _ _
  rw [foldingFirst]
  cases literals : Node.literals? [a, b] with
  | some values =>
      have shape := (Operator.subtraction s known).shape_fold rfl
        ((shapes_of_literals? literals).trans shapes)
      exact fun w _ => suggested_of_shape (seenThrough_of_literals? literals) (offered_some shape)
  | none =>
      change Triple _ (Registry.follow _ (if b.isZero then .done (some a)
        else if a.isZero then some <$> negated s b else .done none)) _ _
      have seen : (Operator.subtraction s known).seenThrough [a, b] =
          if s.isScalar && a.isZero then belowMinus b else none := rfl
      split
      · rename_i zero
        rw [belowMinus_eq_none (applies_of_isZero zero "-"), ite_self] at seen
        exact .value fun _ _ => suggested_of_shape seen (offered_some ha)
      · split
        -- zero minus a scalar is its negation, which may see through the scalar in its turn
        · rename_i zero
          rw [zero, Bool.and_true] at seen
          refine (someNegated_triple h known hb depth).weaken (fun _ => id)
            (fun n? _ hn => .inr ⟨hn.1, ?_⟩) fun f _ hf => ?_
          · rw [seen]
            exact hn.2
          · rw [seen]
            exact hf
        · rename_i nonzero
          rw [if_neg (by simp [nonzero])] at seen
          exact .value fun _ _ => suggested_of_shape seen offered_none

theorem build_comes (h : Registry.standard.Extends extended) (o : Operator)
    (shapes : operands.map Node.shape = o.signature.operands) (depth : Nat) :
    Comes o operands
      (Registry.buildWith (extended.makeWithin (depth + 2)) o.definition operands) := by
  by_cases difference : ∃ s known, o = .subtraction s known
  · rcases difference with ⟨s, known, rfl⟩
    exact buildDifference_comes h shapes depth
  · exact buildWithin_comes shapes (fun s known same => difference ⟨s, known, same⟩) (depth + 1)

theorem apply_comes (h : Registry.standard.Extends extended) (o : Operator)
    (shapes : operands.map Node.shape = o.signature.operands) :
    Comes o operands (extended.apply o.signature.name operands) :=
  makeWith_comes shapes h (build_comes h o shapes (nestingLimit - 3))

/-- In every registry with other operators besides, applying a standard operator to operands of its
shapes comes to a node of the shape of its result, exactly if what is seen through an operand is a node
of this shape.  Otherwise the application is refused: the answer of an `optimize` hook where a node is
seen, and the missing operand of a transposition where there is none. -/
theorem apply_succeeds_iff (h : Registry.standard.Extends extended) (o : Operator)
    (shapes : operands.map Node.shape = o.signature.operands) (w : Workspace K) :
    ((∃ n w', (extended.apply o.signature.name operands).runIn w = (.ok n, w') ∧
        n.shape = o.signature.result) ↔
      ∀ seen ∈ o.seenThrough operands, seen.map Node.shape = some o.signature.result) ∧
    ∀ seen ∈ o.seenThrough operands, seen.map Node.shape ≠ some o.signature.result →
      ∃ e w', (extended.apply o.signature.name operands).runIn w = (.error (.error e), w') ∧
        ∀ m ∈ seen, ∃ s, e = .wrongResult s "optimize" m.shape := by
  have comes := apply_comes h o shapes w trivial
  rw [Work.runIn]
  revert comes
  rcases (extended.apply o.signature.name operands).run.run w with ⟨f | n, w'⟩
  · rintro ⟨seen, through, differs, e, rfl, wrong⟩
    refine ⟨⟨?_, fun shape => absurd (shape seen through) differs⟩, ?_⟩
    · rintro ⟨_, _, ⟨⟩, _⟩
    · intro other same _
      obtain rfl : seen = other := Option.some.inj (through.symm.trans same)
      exact ⟨e, w', rfl, wrong⟩
  · rintro ⟨result, shape⟩
    exact ⟨⟨fun _ => shape, fun _ => ⟨n, w', rfl, result⟩⟩,
      fun seen through differs => absurd (shape seen through) differs⟩

/-- Beside an operator that builds vectors of symbolic reals, components of standard vectors are still
selected. -/
theorem apply_succeeds_iff_component :
    let x : Node ℚ := .leaf 4 "x" .scalar
    let v : Node ℚ := .application 5 ⟨.vec3, "Vec3", [.scalar, .scalar, .scalar]⟩ [x, x, x]
    (Registry.standard : Registry ℚ).Extends withSymbolicVector ∧ [v].map Node.shape = [.vec3] ∧
      ∃ n w', (withSymbolicVector.apply "(0)" [v]).runIn ⟨6, #[]⟩ = (.ok n, w') ∧
        n.shape = .scalar := by
  intro x v
  refine ⟨extends_withSymbolicVector, rfl, ?_⟩
  have seen : Seen .scalar ((Operator.selector .vec3 rfl 0 (by decide)).seenThrough [v]) :=
    seen_some (a := x) rfl
  exact (apply_succeeds_iff extends_withSymbolicVector (.selector .vec3 rfl 0 (by decide)) rfl
    ⟨6, #[]⟩).1.2 seen

/-- The first component of a vector of symbolic reals is refused: the selector takes the operand for
a standard vector, and the symbolic real for its component. -/
theorem component_of_symbolicVector_refused :
    let g : Node ℚ := .leaf 4 "g" .genericScalar
    let v : Node ℚ := .application 5 (symbolicVector : Definition ℚ).signature [g, g, g]
    (Registry.standard : Registry ℚ).Extends withSymbolicVector ∧
      (withSymbolicVector.apply "Vec3" [g, g, g]).runIn ⟨5, #[]⟩ = (.ok v, ⟨6, #[]⟩) ∧
      [v].map Node.shape = (Operator.selector .vec3 rfl 0 (by decide)).signature.operands ∧
      ¬ ∃ n w', (withSymbolicVector.apply "(0)" [v]).runIn ⟨6, #[]⟩ = (.ok n, w') := by
  intro g v
  refine ⟨extends_withSymbolicVector, ?_, rfl, ?_⟩
  · have resolved : (withSymbolicVector : Registry ℚ).resolve "Vec3" ([g, g, g].map Node.shape) =
        .ok symbolicVector :=
      Registry.resolve_of_free symbolicVector_free
    rw [Registry.apply, Registry.make_eq, Registry.makeWith, resolved]
    rfl
  · rintro ⟨n, w', run⟩
    have fits : [v].map Node.shape = (Operator.selector .vec3 rfl 0 (by decide)).signature.operands :=
      rfl
    have scalar := (Triple.of_runIn_eq_ok (apply_comes extends_withSymbolicVector _ fits) trivial
      run).2 (some g) rfl
    exact absurd (Option.some.inj scalar) (by decide)

end Standard

end SymbolicLinalg
