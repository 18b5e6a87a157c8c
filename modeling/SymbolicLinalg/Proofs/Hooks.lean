import SymbolicLinalg.Proofs.Growth
import SymbolicLinalg.Proofs.Operator

/-!
# Hooks — the standard hooks draw on the operands

The `optimize` hooks answer with a constant, with a node below the operands or with a construction
over them, and the hooks that lower an operator build over the operands as well.  Which operators are
applied on the way is recorded by their names: simplification applies only `-` and `*`, and no
operator that lowering takes apart is applied at all.
-/

namespace SymbolicLinalg

namespace Standard

variable {K ρ σ α : Type} [Dialogue K ρ σ] {names : String → Prop} {given operands : List (Node K)}
  {a b : Node K}

/-! ## Answers of simplification -/

section

variable {P : Node K → Prop}

theorem offered_none : ∀ n ∈ (none : Option (Node K)), P n :=
  fun n hn => absurd hn (Option.not_mem_none n)

theorem offered_some (holds : P a) : ∀ n ∈ some a, P n := by
  intro n hn
  obtain rfl : a = n := Option.some.inj hn
  exact holds

theorem offered_ite {p : Prop} [Decidable p] {m? n? : Option (Node K)} (first : ∀ n ∈ m?, P n)
    (second : ∀ n ∈ n?, P n) : ∀ n ∈ (if p then m? else n?), P n := by
  split
  · exact first
  · exact second

end

/-- The answer of a hook, if there is one, lies below the nodes at hand. -/
abbrev Offered (now : List (Node K)) (n? : Option (Node K)) : Prop :=
  ∀ n ∈ n?, Node.Below now n

/-- An operand of a node is offered, if it is there. -/
theorem offered_operand (below : Node.Below given a) {n? : Option (Node K)}
    (operand : ∀ n ∈ n?, n ∈ a.operands) : Offered given n? :=
  fun n hn => below.of_reaches (.of_mem_operands (operand n hn))

theorem draws_ite {p : Prop} [Decidable p] {rule other : Rule K α}
    {post : List (Node K) → α → Prop} (first : rule.Draws names given post)
    (second : other.Draws names given post) :
    (if p then rule else other).Draws names given post := by
  split
  · exact first
  · exact second

theorem draws_constant (v : Literal K) :
    (Recipe.constant v : Recipe K ρ σ (Node K)).Draws names given Node.Below :=
  ⟨trivial, fun _ => .of_mem List.mem_cons_self⟩

theorem draws_someConstant (v : Literal K) :
    (some <$> Recipe.constant v : Rule K (Option (Node K))).Draws names given Offered :=
  .map ⟨trivial, fun _ => offered_some (.of_mem List.mem_cons_self)⟩

theorem draws_apply {name : String} (allowed : names name)
    (below : ∀ m ∈ operands, Node.Below given m) :
    (Recipe.apply name operands : Recipe K ρ σ (Node K)).Draws names given Node.Below :=
  ⟨⟨allowed, below⟩, fun _ => .of_mem List.mem_cons_self⟩

theorem draws_one {name : String} (allowed : names name) (ha : Node.Below given a) :
    (Recipe.apply name [a] : Recipe K ρ σ (Node K)).Draws names given Node.Below :=
  draws_apply allowed (List.forall_mem_singleton.2 ha)

theorem draws_two {name : String} (allowed : names name) (ha : Node.Below given a)
    (hb : Node.Below given b) :
    (Recipe.apply name [a, b] : Recipe K ρ σ (Node K)).Draws names given Node.Below :=
  draws_apply allowed (List.forall_mem_cons.2 ⟨ha, List.forall_mem_singleton.2 hb⟩)

theorem draws_onOne {name : String} {f : Node K → Recipe K ρ σ α} {post : List (Node K) → α → Prop}
    (below : ∀ m ∈ operands, Node.Below given m)
    (h : ∀ a, Node.Below given a → (f a).Draws names given post) :
    (onOne name f operands).Draws names given post :=
  onOne_cases (P := fun recipe => recipe.Draws names given post) (fun _ => trivial) below h

theorem draws_onTwo {name : String} {f : Node K → Node K → Recipe K ρ σ α}
    {post : List (Node K) → α → Prop} (below : ∀ m ∈ operands, Node.Below given m)
    (h : ∀ a b, Node.Below given a → Node.Below given b → (f a b).Draws names given post) :
    (onTwo name f operands).Draws names given post :=
  onTwo_cases (P := fun recipe => recipe.Draws names given post) (fun _ => trivial) below h

theorem draws_firstOperand {name : String} (ha : Node.Below given a) :
    (firstOperand name a : Recipe K ρ σ (Node K)).Draws names given Node.Below := by
  rw [firstOperand]
  split
  · rename_i n rest parts
    exact ha.of_reaches (.of_mem_operands (parts ▸ List.mem_cons_self))
  · trivial

theorem draws_foldingFirst {fold : List (Literal K) → Literal K}
    {rule : List (Node K) → Rule K (Option (Node K))}
    (h : (rule operands).Draws names given Offered) :
    (foldingFirst fold rule operands).Draws names given Offered := by
  rw [foldingFirst]
  split
  · exact draws_someConstant _
  · exact h

variable [Arithmetic K]

theorem draws_negated (minus : names "-") (times : names "*") (s : Shape)
    (below : Node.Below given a) :
    (negated s a : Recipe K ρ σ (Node K)).Draws names given Node.Below := by
  rw [negated]
  split
  · exact draws_one minus below
  · refine .bind ⟨trivial, fun factor => draws_two times (.of_mem List.mem_cons_self) ?_⟩
    exact below.mono (List.subset_cons_self factor given)

/-! ## Simplification -/

variable [Numeral K]

/-- The `optimize` hook of an operator draws on the operands.  Only that of a difference applies
operators, of which the minus sign is one. -/
theorem draws_optimize (o : Operator) (minus : (∃ s h, o = .subtraction s h) → names "-")
    (times : names "*") (below : ∀ m ∈ operands, Node.Below given m)
    {optimize : List (Node K) → Rule K (Option (Node K))}
    (hook : (o.definition : Definition K).hooks.optimize = some optimize) :
    (optimize operands).Draws names given Offered := by
  cases o with
  | addition s h =>
      cases hook
      refine draws_foldingFirst (draws_onTwo below fun a b ha hb => ?_)
      exact offered_ite (offered_some hb) (offered_ite (offered_some ha) offered_none)
  | subtraction s h =>
      cases hook
      refine draws_foldingFirst (draws_onTwo below fun a b ha hb => ?_)
      refine draws_ite (offered_some ha) (draws_ite (.map ?_) offered_none)
      exact (draws_negated (minus ⟨s, h, rfl⟩) times s hb).mono fun _ _ => offered_some
  | negation =>
      cases hook
      refine draws_foldingFirst (draws_onOne below fun a ha => ?_)
      exact offered_ite (offered_operand ha fun _ => List.mem_of_head?) offered_none
  | multiplication =>
      cases hook
      refine draws_foldingFirst (draws_onTwo below fun a b ha hb => ?_)
      exact offered_ite (offered_some ha) (offered_ite (offered_some hb)
        (offered_ite (offered_some hb) (offered_ite (offered_some ha) offered_none)))
  | division =>
      cases hook
      refine draws_foldingFirst (draws_onTwo below fun a b ha hb => ?_)
      exact offered_ite (offered_some ha) offered_none
  | cosine | sine | constructor =>
      cases hook
      exact draws_foldingFirst offered_none
  | scaling s h =>
      cases hook
      refine draws_foldingFirst (draws_onTwo below fun a b ha hb => ?_)
      exact draws_ite (draws_someConstant _) (draws_ite (offered_some hb) offered_none)
  | innerProduct s h =>
      cases hook
      refine draws_foldingFirst (draws_onTwo below fun a b ha hb => ?_)
      exact draws_ite (draws_someConstant _) offered_none
  | selector s h i lt =>
      cases hook
      refine draws_foldingFirst (draws_onOne below fun a ha => ?_)
      exact offered_ite (offered_operand ha fun _ => List.mem_of_getElem?) offered_none
  | transposition s h =>
      cases hook
      refine draws_foldingFirst (draws_onOne below fun a ha => draws_ite (.map ?_) offered_none)
      exact (draws_firstOperand ha).mono fun _ _ => offered_some
  | matrixProduct s h =>
      cases hook
      refine draws_foldingFirst (draws_onTwo below fun a b ha hb => ?_)
      exact offered_ite (offered_some ha) (offered_ite (offered_some hb) offered_none)
  | columnProduct m v h =>
      cases hook
      refine draws_foldingFirst (draws_onTwo below fun a b ha hb => ?_)
      exact draws_ite (draws_someConstant _) (offered_ite (offered_some hb) offered_none)
  | outerProduct m v h =>
      cases hook
      refine draws_foldingFirst (draws_onTwo below fun a b ha hb => ?_)
      exact draws_ite (draws_someConstant _) offered_none
  | axisRotation id r h =>
      cases hook
      exact draws_onOne below fun a ha => draws_ite (draws_someConstant _) offered_none
  | shift =>
      cases hook
      exact draws_ite (draws_someConstant _) offered_none
  | axisScaling =>
      cases hook
      exact draws_ite (draws_someConstant _) (draws_ite (draws_someConstant _) offered_none)
  | axisAngleRotation =>
      cases hook
      exact draws_onTwo below fun a b ha hb => draws_ite (draws_someConstant _) offered_none
  | fromHomogeneous => exact absurd hook nofun

/-- The `optimize` hooks of the standard operators draw on the operands. -/
theorem standard_draws (times : names "*") {captured : List (Node K)} :
    (Registry.standard : Registry K).Draws names captured := by
  intro d hd name optimize hook operands given _ below
  rcases exists_operator hd with ⟨o, rfl⟩
  refine draws_optimize o ?_ times below hook
  rintro ⟨s, h, rfl⟩
  exact name

/-! ## Lowering -/

/-- The operators that lowering takes apart. -/
def highLevel : List String :=
  axisRotations.map (·.name) ++ ["mat44Translation", "mat44Scale", "fromHomo"]

/-- Lowering leaves operators of the name alone. -/
abbrev IsPlain (name : String) : Prop :=
  name ∉ highLevel

/-- The names of rotations are listed. -/
theorem AxisRotation.not_isPlain {id : NodeId} {r : AxisRotation} (h : axisRotations[id]? = some r) :
    ¬ IsPlain r.name :=
  fun plain => plain (List.mem_append_left _ (List.mem_map_of_mem (List.mem_of_getElem? h)))

theorem Operator.hooks_of_isPlain {o : Operator} (plain : IsPlain o.signature.name) :
    (o.definition : Definition K).hooks.replace = none ∧
      (o.definition : Definition K).hooks.expand = none := by
  cases o with
  | axisRotation id r h => exact absurd plain (AxisRotation.not_isPlain h)
  | shift | axisScaling | fromHomogeneous => exact absurd (by decide) plain
  | _ => exact ⟨rfl, rfl⟩

theorem isPlain_shapeName (s : Shape) : IsPlain s.name := by
  cases s <;> decide

theorem isPlain_selectorName (s : Shape) : ∀ i < 16, IsPlain (Recipe.selectorName s i) := by
  cases s <;> decide +kernel

/-- Every other operator is expanded or replaced. -/
theorem Operator.hooks_of_not_isPlain {o : Operator} (high : ¬ IsPlain o.signature.name) :
    (o.definition : Definition K).hooks.replace = none ∧
        (∃ expand, (o.definition : Definition K).hooks.expand = some expand) ∨
      o = .fromHomogeneous := by
  -- the other operators have other names, which is checked name by name
  have symbols : ∀ name ∈ ["+", "-", "*", "/", "cos", "sin", "dot", "trans", "outer",
      "mat44Rotation"], IsPlain name := by
    decide
  cases o with
  | axisRotation | shift | axisScaling => exact .inl ⟨rfl, _, rfl⟩
  | fromHomogeneous => exact .inr rfl
  | constructor s h => exact absurd (isPlain_shapeName s) high
  | selector s h i lt =>
      have bound : s.size ≤ 16 := by cases s <;> decide
      exact absurd (isPlain_selectorName s i (Nat.lt_of_lt_of_le lt bound)) high
  | _ => exact absurd (symbols _ (by simp [Operator.signature])) high

omit [Numeral K] in
theorem draws_cellNode {c s negS : Node K} (hc : Node.Below given c) (hs : Node.Below given s)
    (hnegS : Node.Below given negS) (cell : Cell) :
    (AxisRotation.cellNode c s negS cell : Rule K (Node K)).Draws names given Node.Below := by
  cases cell with
  | zero | one => exact draws_constant _
  | cos => exact hc
  | sin => exact hs
  | negSin => exact hnegS

omit [Numeral K] in
theorem draws_expansion (r : AxisRotation) (ha : Node.Below given a) :
    (r.expansion a : Rule K (Node K)).Draws IsPlain given Node.Below := by
  -- cosine, sine and negative sine are made once, and shared by the cells
  refine .bind ((draws_one (by decide) ha).keeps.mono fun second c ⟨sub, hc⟩ => ?_)
  refine .bind ((draws_one (by decide) (ha.mono sub)).keeps.mono fun third s ⟨sub, hs⟩ => ?_)
  refine .bind ((draws_one (by decide) hs).keeps.mono fun fourth negS ⟨sub', hnegS⟩ => ?_)
  have cells : (Recipe.each (AxisRotation.cellNode c s negS) r.cells : Rule K _).Draws IsPlain fourth
      fun now ns => ∀ n ∈ ns, Node.Below now n :=
    .each fun cell _ now later => draws_cellNode (((hc.mono sub).mono sub').mono later)
      ((hs.mono sub').mono later) (hnegS.mono later) cell
  exact .bind (cells.mono fun now ns hns => draws_apply (isPlain_shapeName r.shape) hns)

omit [Arithmetic K] [Numeral K] in
theorem draws_fillIn {nodes : List (Node K)} (below : ∀ m ∈ nodes, Node.Below given m)
    (positions : List Nat) (rest : Nat → K) (l : List Nat) :
    (fillIn positions nodes rest l : Recipe K ρ σ (List (Node K))).Draws names given
      fun now ns => ∀ n ∈ ns, Node.Below now n := by
  refine .each ?_
  intro i _ now sub
  split
  · rename_i n found
    rcases Option.bind_eq_some_iff.1 found with ⟨k, _, found⟩
    exact (below n (List.mem_of_getElem? found)).mono sub
  · exact draws_constant _

omit [Numeral K] in
theorem draws_filledIdentity {name : String} {positions : List Nat}
    {optimize : List (Node K) → Rule K (Option (Node K))}
    (below : ∀ m ∈ operands, Node.Below given m)
    {expand : List (Node K) → Rule K (Option (Node K))}
    (hook : (filledIdentity name positions optimize).hooks.expand = some expand) :
    (expand operands).Draws IsPlain given fun now n? => ∃ n, n? = some n ∧ Node.Below now n := by
  cases hook
  refine .bind ((draws_fillIn below positions _ _).mono fun now ns hns => .map ?_)
  exact (draws_apply (by decide) hns).mono fun _ n hn => ⟨n, rfl, hn⟩

/-- An expansion draws on the operands, and applies no operator that would be expanded; it is never
declined. -/
theorem draws_expand (o : Operator) (below : ∀ m ∈ operands, Node.Below given m)
    {expand : List (Node K) → Rule K (Option (Node K))}
    (hook : (o.definition : Definition K).hooks.expand = some expand) :
    (expand operands).Draws IsPlain given fun now n? => ∃ n, n? = some n ∧ Node.Below now n := by
  cases o with
  | axisRotation id r h =>
      cases hook
      refine draws_onOne below fun a ha => .map ?_
      exact (draws_expansion r ha).mono fun _ n hn => ⟨n, rfl, hn⟩
  | shift | axisScaling => exact draws_filledIdentity below hook
  | _ => exact absurd hook nofun

/-- A replacement draws on the operands, and applies no operator that would be replaced. -/
theorem draws_replace (o : Operator) (below : ∀ m ∈ operands, Node.Below given m)
    {replace : List (Node K) → Rule K (Node K)}
    (hook : (o.definition : Definition K).hooks.replace = some replace) :
    (replace operands).Draws IsPlain given Node.Below := by
  cases o with
  | fromHomogeneous =>
      cases hook
      refine draws_onOne below ?_
      intro p hp
      have select (i : Nat) (hi : i < 16) {now : List (Node K)} (hp : Node.Below now p) :
          (Recipe.select p i : Rule K (Node K)).Draws IsPlain now Node.Below :=
        draws_one (isPlain_selectorName p.shape i hi) hp
      refine .bind ((select 3 (by decide) hp).keeps.mono fun second w ⟨sub, hw⟩ => ?_)
      refine .bind ((Recipe.Draws.each fun i hi now later => ?_).mono fun now ns hns => ?_)
      · have lt : i < 16 := by
          simp only [List.mem_cons, List.not_mem_nil, or_false] at hi
          omega
        refine .bind ((select i lt ((hp.mono sub).mono later)).keeps.mono ?_)
        exact fun third x ⟨sub', hx⟩ => draws_two (by decide) hx ((hw.mono later).mono sub')
      · exact draws_apply (by decide) hns
  | _ => exact absurd hook nofun

end Standard

end SymbolicLinalg
