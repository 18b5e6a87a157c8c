import SymbolicLinalg.Proofs.Mirror
import SymbolicLinalg.Proofs.Operator
import SymbolicLinalg.Proofs.Resemblance
import SymbolicLinalg.Proofs.Triple

/-!
# Accord — hooks that do the same with nodes that look alike

Two recipes accord if they ask for the same, of nodes that correspond, as long as they get
corresponding nodes for an answer.  The hooks of the standard operators make nothing of the
identities of their operands, so over operands that look alike they accord.

* `Correspondence`: which nodes correspond, and which requests and answers;
* `Recipe.Accords`: recipes in accord, and `Recipe.Accords.run_mirrors`: how they are carried out;
* `Standard.Operator.accords_optimize` and so on: the hooks of all standard operators accord.
-/

namespace SymbolicLinalg

variable {K ρ σ α α' β β' : Type}

/-! ## Recipes -/

/-- Constructions of one kind from nodes that are related by `M`.  Leaves that are made are like no
others. -/
inductive Construction.Like (M : Node K → Node K → Prop) :
    Construction K → Construction K → Prop where
  | constant (v : Literal K) : Like M (.constant v) (.constant v)
  | apply (name : String) {ns ms : List (Node K)} :
      List.Forall₂ M ns ms → Like M (.apply name ns) (.apply name ms)
  | applyFor (result : Shape) (name : String) {ns ms : List (Node K)} :
      List.Forall₂ M ns ms → Like M (.applyFor result name ns) (.applyFor result name ms)

/-- Which nodes of one run correspond to which of another, and which requests and answers do. -/
structure Correspondence (K ρ σ : Type) where
  nodes : Node K → Node K → Prop
  asked : ρ → ρ → Prop
  answered : σ → σ → Prop

/-- The correspondence for recipes that only build. -/
def Correspondence.building (M : Node K → Node K → Prop) : Correspondence K Empty Empty :=
  ⟨M, fun request _ => request.elim, fun reply _ => reply.elim⟩

/-- The recipes put the same questions, and are refused for the same reason. -/
inductive Recipe.Accords (c : Correspondence K ρ σ) (rel : α → α' → Prop) :
    Recipe K ρ σ α → Recipe K ρ σ α' → Prop where
  | done {a : α} {a' : α'} : rel a a' → Accords c rel (.done a) (.done a')
  | refuse (e : Error) : Accords c rel (.refuse e) (.refuse e)
  | make {k k' : Construction K} {next : Node K → Recipe K ρ σ α}
      {next' : Node K → Recipe K ρ σ α'} : k.Like c.nodes k' →
      (∀ n m, c.nodes n m → Accords c rel (next n) (next' m)) →
      Accords c rel (.make k next) (.make k' next')
  | ask {request request' : ρ} {next : σ → Recipe K ρ σ α} {next' : σ → Recipe K ρ σ α'} :
      c.asked request request' →
      (∀ reply reply', c.answered reply reply' → Accords c rel (next reply) (next' reply')) →
      Accords c rel (.ask request next) (.ask request' next')

namespace Recipe.Accords

variable {c : Correspondence K ρ σ} {rel : α → α' → Prop} {rel' : β → β' → Prop}
  {recipe : Recipe K ρ σ α} {recipe' : Recipe K ρ σ α'}

theorem bind {next : α → Recipe K ρ σ β} {next' : α' → Recipe K ρ σ β'}
    (h : recipe.Accords c rel recipe')
    (k : ∀ a a', rel a a' → (next a).Accords c rel' (next' a')) :
    (recipe >>= next).Accords c rel' (recipe' >>= next') := by
  change (recipe.bind next).Accords c rel' (recipe'.bind next')
  induction h with
  | done related => exact k _ _ related
  | refuse e => exact .refuse e
  | make like _ ih => exact .make like ih
  | ask asked _ ih => exact .ask asked ih

theorem map {f : α → β} {f' : α' → β'} (h : recipe.Accords c rel recipe')
    (k : ∀ a a', rel a a' → rel' (f a) (f' a')) :
    (f <$> recipe).Accords c rel' (f' <$> recipe') :=
  h.bind fun a a' related => .done (k a a' related)

theorem each {f : α → Recipe K ρ σ β} {f' : α' → Recipe K ρ σ β'} {l : List α} {l' : List α'}
    (related : List.Forall₂ rel l l') (h : ∀ a a', rel a a' → (f a).Accords c rel' (f' a')) :
    (Recipe.each f l).Accords c (List.Forall₂ rel') (Recipe.each f' l') := by
  induction related with
  | nil => exact .done .nil
  | cons head _ ih =>
      refine (h _ _ head).bind fun b b' hb => ih.bind fun bs bs' hbs => ?_
      exact .done (.cons hb hbs)

theorem each_same {f : α → Recipe K ρ σ β} {f' : α → Recipe K ρ σ β'} (l : List α)
    (h : ∀ a, (f a).Accords c rel' (f' a)) :
    (Recipe.each f l).Accords c (List.Forall₂ rel') (Recipe.each f' l) :=
  each (List.forall₂_same.2 fun _ _ => rfl) fun a _ same => same ▸ h a

/-- Recipes in accord are carried out side by side. -/
theorem run_mirrors {S S' : Type} {I : S → S' → Prop}
    {make : Construction K → ExceptT Fault (StateM S) (Node K)}
    {make' : Construction K → ExceptT Fault (StateM S') (Node K)}
    {answer : ρ → ExceptT Fault (StateM S) σ} {answer' : ρ → ExceptT Fault (StateM S') σ}
    {refuse : Error → ExceptT Fault (StateM S) α} {refuse' : Error → ExceptT Fault (StateM S') α'}
    (h : recipe.Accords c rel recipe')
    (makes : ∀ k k', k.Like c.nodes k' → Mirrors I (make k) (make' k') c.nodes)
    (answers : ∀ request request', c.asked request request' →
      Mirrors I (answer request) (answer' request') c.answered)
    (refuses : ∀ e, Mirrors I (refuse e) (refuse' e) rel) :
    Mirrors I (recipe.run make answer refuse) (recipe'.run make' answer' refuse') rel := by
  induction h with
  | done related => exact .value related
  | refuse e => exact refuses e
  | make like _ ih => exact (makes _ _ like).bind ih
  | ask asked _ ih => exact (answers _ _ asked).bind ih

/-- A recipe in accord with another keeps what its constructions and its requests keep, if nodes and
answers correspond to themselves. -/
theorem run_keeps {S : Type} {keeps : S → Prop}
    {make : Construction K → ExceptT Fault (StateM S) (Node K)}
    {answer : ρ → ExceptT Fault (StateM S) σ} {refuse : Error → ExceptT Fault (StateM S) α}
    (h : recipe.Accords c rel recipe') (nodes : ∀ n, c.nodes n n) (replies : ∀ a, c.answered a a)
    (makes : ∀ k, Triple keeps (make k) (fun _ => keeps) fun _ => keeps)
    (answers : ∀ request request', c.asked request request' →
      Triple keeps (answer request) (fun _ => keeps) fun _ => keeps)
    (refuses : ∀ e, Triple keeps (refuse e) (fun _ => keeps) fun _ => keeps) :
    Triple keeps (recipe.run make answer refuse) (fun _ => keeps) fun _ => keeps := by
  induction h with
  | done _ => exact .value fun _ h => h
  | refuse e => exact refuses e
  | make _ _ ih => exact (makes _).bind fun n => ih n n (nodes n)
  | ask asked _ ih => exact (answers _ _ asked).bind fun a => ih a a (replies a)

end Recipe.Accords

/-! ## Steps of the standard hooks -/

namespace Standard

variable {c : Correspondence K ρ σ} {M : Node K → Node K → Prop} {a a' b b' : Node K}
  {ns ms : List (Node K)}

section

variable {rel : α → α' → Prop}

theorem accords_constant (v : Literal K) :
    (Recipe.constant v : Recipe K ρ σ (Node K)).Accords c c.nodes (Recipe.constant v) :=
  .make (.constant v) fun _ _ => .done

theorem accords_apply (name : String) (operands : List.Forall₂ c.nodes ns ms) :
    (Recipe.apply name ns : Recipe K ρ σ (Node K)).Accords c c.nodes (Recipe.apply name ms) :=
  .make (.apply name operands) fun _ _ => .done

theorem accords_one (name : String) (ha : c.nodes a a') :
    (Recipe.apply name [a] : Recipe K ρ σ (Node K)).Accords c c.nodes (Recipe.apply name [a']) :=
  accords_apply name (.cons ha .nil)

theorem accords_two (name : String) (ha : c.nodes a a') (hb : c.nodes b b') :
    (Recipe.apply name [a, b] : Recipe K ρ σ (Node K)).Accords c c.nodes
      (Recipe.apply name [a', b']) :=
  accords_apply name (.cons ha (.cons hb .nil))

theorem relates_head? (operands : List.Forall₂ M ns ms) : Option.Rel M ns.head? ms.head? := by
  cases operands with
  | nil => exact .none
  | cons head _ => exact .some head

theorem relates_getElem? (operands : List.Forall₂ M ns ms) (i : Nat) :
    Option.Rel M ns[i]? ms[i]? := by
  induction operands generalizing i with
  | nil => exact .none
  | cons head _ ih =>
      cases i with
      | zero => exact .some head
      | succ i => simpa using ih i

/-- Operands with their places, the same in both lists. -/
theorem relates_zip (operands : List.Forall₂ M ns ms) (positions : List Nat) :
    List.Forall₂ (fun p p' => M p.1 p'.1 ∧ p.2 = p'.2) (ns.zip positions) (ms.zip positions) := by
  induction operands generalizing positions with
  | nil => exact .nil
  | cons head _ ih =>
      cases positions with
      | nil => exact .nil
      | cons i rest => exact .cons ⟨head, rfl⟩ (ih rest)

theorem accords_fillIn (operands : List.Forall₂ c.nodes ns ms) (positions : List Nat)
    (rest : Nat → K) (l : List Nat) :
    (fillIn positions ns rest l : Recipe K ρ σ (List (Node K))).Accords c (List.Forall₂ c.nodes)
      (fillIn positions ms rest l) := by
  refine Recipe.Accords.each_same l fun i => ?_
  cases operandPlace? positions i with
  | none => exact accords_constant _
  | some k =>
      have related := relates_getElem? operands k
      rw [Option.bind_some, Option.bind_some]
      revert related
      rcases ns[k]? with _ | n <;> rcases ms[k]? with _ | m
      · exact fun _ => accords_constant _
      · exact nofun
      · exact nofun
      · rintro (h | _)
        exact .done h

theorem accords_someConstant (v : Literal K) :
    (some <$> Recipe.constant v : Recipe K ρ σ (Option (Node K))).Accords c (Option.Rel c.nodes)
      (some <$> Recipe.constant v) :=
  (accords_constant v).map fun _ _ => .some

theorem accords_negated [Arithmetic K] (s : Shape) (ha : c.nodes a a') :
    (negated s a : Recipe K ρ σ (Node K)).Accords c c.nodes (negated s a') :=
  relates_ite rfl (accords_one "-" ha) ((accords_constant _).bind fun _ _ hf => accords_two "*" hf ha)

end

/-! ### Nodes that look alike -/

section

variable {rel : α → α' → Prop} (resembles : Node.Resembles c.nodes)

include resembles

theorem accords_refuseOperands (name : String) (operands : List.Forall₂ c.nodes ns ms) :
    (Recipe.refuseOperands name ns : Recipe K ρ σ α).Accords c rel
      (Recipe.refuseOperands name ms) := by
  rw [Recipe.refuseOperands, Recipe.refuseOperands, resembles.shapes operands]
  exact .refuse _

theorem accords_select (ha : c.nodes a a') (position : Nat) :
    (Recipe.select a position : Recipe K ρ σ (Node K)).Accords c c.nodes
      (Recipe.select a' position) := by
  rw [Recipe.select, Recipe.select, (resembles ha).shape]
  exact accords_one _ ha

/-- The operands may be related more closely than nodes are at large. -/
theorem accords_onOne {name : String} {f : Node K → Recipe K ρ σ α} {f' : Node K → Recipe K ρ σ α'}
    (closely : ∀ ⦃a a'⦄, M a a' → c.nodes a a') (operands : List.Forall₂ M ns ms)
    (h : ∀ a a', M a a' → (f a).Accords c rel (f' a')) :
    (onOne name f ns).Accords c rel (onOne name f' ms) := by
  have refused : (Recipe.refuseOperands name ns).Accords c rel (Recipe.refuseOperands name ms) :=
    accords_refuseOperands resembles name (operands.imp fun _ _ h => closely h)
  match operands with
  | .nil | .cons _ (.cons _ _) => exact refused
  | .cons ha .nil => exact h _ _ ha

theorem accords_onTwo {name : String} {f : Node K → Node K → Recipe K ρ σ α}
    {f' : Node K → Node K → Recipe K ρ σ α'} (closely : ∀ ⦃a a'⦄, M a a' → c.nodes a a')
    (operands : List.Forall₂ M ns ms)
    (h : ∀ a a' b b', M a a' → M b b' → (f a b).Accords c rel (f' a' b')) :
    (onTwo name f ns).Accords c rel (onTwo name f' ms) := by
  have refused : (Recipe.refuseOperands name ns).Accords c rel (Recipe.refuseOperands name ms) :=
    accords_refuseOperands resembles name (operands.imp fun _ _ h => closely h)
  match operands with
  | .nil | .cons _ .nil | .cons _ (.cons _ (.cons _ _)) => exact refused
  | .cons ha (.cons hb .nil) => exact h _ _ _ _ ha hb

theorem accords_firstOperand {name : String} (ha : c.nodes a a') :
    (firstOperand name a : Recipe K ρ σ (Node K)).Accords c c.nodes (firstOperand name a') := by
  rw [firstOperand, firstOperand]
  match a.operands, a'.operands, (resembles ha).operands with
  | [], [], .nil => exact .refuse _
  | _ :: _, _ :: _, .cons head _ => exact .done head

end

theorem accords_foldingFirst {c : Correspondence K Empty Empty} (resembles : Node.Resembles c.nodes)
    {fold : List (Literal K) → Literal K}
    {rule : List (Node K) → Rule K (Option (Node K))} (operands : List.Forall₂ c.nodes ns ms)
    (h : (rule ns).Accords c (Option.Rel c.nodes) (rule ms)) :
    (foldingFirst fold rule ns).Accords c (Option.Rel c.nodes) (foldingFirst fold rule ms) := by
  rw [foldingFirst, foldingFirst, resembles.literals? operands]
  cases Node.literals? ns with
  | none => exact h
  | some values => exact accords_someConstant (fold values)

theorem accords_foldingOne {c : Correspondence K Empty Empty} (resembles : Node.Resembles c.nodes)
    {fold : List (Literal K) → Literal K} {name : String} {f : Node K → Rule K (Option (Node K))}
    (operands : List.Forall₂ c.nodes ns ms)
    (h : ∀ a a', c.nodes a a' → (f a).Accords c (Option.Rel c.nodes) (f a')) :
    (foldingFirst fold (onOne name f) ns).Accords c (Option.Rel c.nodes)
      (foldingFirst fold (onOne name f) ms) :=
  accords_foldingFirst resembles operands (accords_onOne resembles (fun _ _ same => same) operands h)

theorem accords_foldingTwo {c : Correspondence K Empty Empty} (resembles : Node.Resembles c.nodes)
    {fold : List (Literal K) → Literal K} {name : String}
    {f : Node K → Node K → Rule K (Option (Node K))} (operands : List.Forall₂ c.nodes ns ms)
    (h : ∀ a a' b b', c.nodes a a' → c.nodes b b' →
      (f a b).Accords c (Option.Rel c.nodes) (f a' b')) :
    (foldingFirst fold (onTwo name f) ns).Accords c (Option.Rel c.nodes)
      (foldingFirst fold (onTwo name f) ms) :=
  accords_foldingFirst resembles operands (accords_onTwo resembles (fun _ _ same => same) operands h)

/-! ## Rules -/

section

variable [Arithmetic K] {c : Correspondence K Empty Empty}

theorem accords_expansion (r : AxisRotation) (ha : c.nodes a a') :
    (r.expansion a : Rule K (Node K)).Accords c c.nodes (r.expansion a') := by
  -- cosine, sine and negative sine are made once, and shared by the cells
  refine (accords_one "cos" ha).bind fun cos cos' hcos => ?_
  refine (accords_one "sin" ha).bind fun sin sin' hsin => ?_
  refine (accords_one "-" hsin).bind fun minus minus' hminus => ?_
  refine (Recipe.Accords.each_same _ fun cell => ?_).bind fun _ _ => accords_apply _
  cases cell with
  | zero | one => exact accords_constant _
  | cos => exact .done hcos
  | sin => exact .done hsin
  | negSin => exact .done hminus

variable [Numeral K] (resembles : Node.Resembles c.nodes) (o : Operator)
  (operands : List.Forall₂ c.nodes ns ms)

include resembles operands

theorem Operator.accords_optimize {optimize : List (Node K) → Rule K (Option (Node K))}
    (hook : (o.definition : Definition K).hooks.optimize = some optimize) :
    (optimize ns).Accords c (Option.Rel c.nodes) (optimize ms) := by
  cases o with
  | addition s h =>
      cases hook
      refine accords_foldingTwo resembles operands fun a a' b b' ha hb => .done ?_
      refine relates_ite (resembles ha).isZero (.some hb) ?_
      exact relates_ite (resembles hb).isZero (.some ha) .none
  | subtraction s h =>
      cases hook
      refine accords_foldingTwo resembles operands fun a a' b b' ha hb => ?_
      refine relates_ite (resembles hb).isZero (.done (.some ha)) ?_
      exact relates_ite (resembles ha).isZero ((accords_negated s hb).map fun _ _ => .some)
        (.done .none)
  | negation =>
      cases hook
      refine accords_foldingOne resembles operands fun a a' ha => .done ?_
      refine relates_ite ?_ (relates_head? (resembles ha).operands) .none
      rw [(resembles ha).applies, (resembles ha).operands.length_eq]
  | multiplication =>
      cases hook
      refine accords_foldingTwo resembles operands fun a a' b b' ha hb => .done ?_
      refine relates_ite (resembles ha).isZero (.some ha) ?_
      refine relates_ite (resembles ha).isOne (.some hb) ?_
      refine relates_ite (resembles hb).isZero (.some hb) ?_
      exact relates_ite (resembles hb).isOne (.some ha) .none
  | division =>
      cases hook
      refine accords_foldingTwo resembles operands fun a a' b b' ha hb => .done ?_
      exact relates_ite (by rw [(resembles ha).isZero, (resembles hb).isOne]) (.some ha) .none
  | cosine | sine | constructor =>
      cases hook
      exact accords_foldingFirst resembles operands (.done .none)
  | scaling s h =>
      cases hook
      refine accords_foldingTwo resembles operands fun a a' b b' ha hb => ?_
      refine relates_ite (by rw [(resembles ha).isZero, (resembles hb).isZero])
        (accords_someConstant _) ?_
      exact relates_ite (resembles ha).isOne (.done (.some hb)) (.done .none)
  | innerProduct s h | outerProduct m v h =>
      cases hook
      refine accords_foldingTwo resembles operands fun a a' b b' ha hb => ?_
      exact relates_ite (by rw [(resembles ha).isZero, (resembles hb).isZero])
        (accords_someConstant _) (.done .none)
  | selector s h i lt =>
      cases hook
      refine accords_foldingOne resembles operands fun a a' ha => .done ?_
      refine relates_ite ?_ (relates_getElem? (resembles ha).operands i) .none
      rw [(resembles ha).applies, (resembles ha).operands.length_eq]
  | transposition s h =>
      cases hook
      refine accords_foldingOne resembles operands fun a a' ha => ?_
      exact relates_ite ((resembles ha).applies "trans")
        ((accords_firstOperand resembles ha).map fun _ _ => .some) (.done .none)
  | matrixProduct s h =>
      cases hook
      refine accords_foldingTwo resembles operands fun a a' b b' ha hb => .done ?_
      refine relates_ite (by rw [(resembles ha).isZero, (resembles hb).isOne]) (.some ha) ?_
      exact relates_ite (by rw [(resembles hb).isZero, (resembles ha).isOne]) (.some hb) .none
  | columnProduct m v h =>
      cases hook
      refine accords_foldingTwo resembles operands fun a a' b b' ha hb => ?_
      refine relates_ite (resembles ha).isZero (accords_someConstant _) (.done ?_)
      exact relates_ite (by rw [(resembles hb).isZero, (resembles ha).isOne]) (.some hb) .none
  | axisRotation id r h =>
      cases hook
      refine accords_onOne resembles (fun _ _ same => same) operands fun a a' ha => ?_
      exact relates_ite (resembles ha).isZero (accords_someConstant _) (.done .none)
  | shift =>
      cases hook
      exact relates_ite (resembles.all_isZero operands) (accords_someConstant _) (.done .none)
  | axisScaling =>
      cases hook
      refine relates_ite (resembles.all_isZero operands) (accords_someConstant _) ?_
      exact relates_ite (resembles.all_isOne operands) (accords_someConstant _) (.done .none)
  | axisAngleRotation =>
      cases hook
      refine accords_onTwo resembles (fun _ _ same => same) operands fun _ _ _ _ _ ha => ?_
      exact relates_ite (resembles ha).isZero (accords_someConstant _) (.done .none)
  | fromHomogeneous => exact absurd hook nofun

theorem Operator.accords_expand {expand : List (Node K) → Rule K (Option (Node K))}
    (hook : (o.definition : Definition K).hooks.expand = some expand) :
    (expand ns).Accords c (Option.Rel c.nodes) (expand ms) := by
  cases o with
  | axisRotation id r h =>
      cases hook
      exact accords_onOne resembles (fun _ _ same => same) operands fun a a' ha =>
        (accords_expansion r ha).map fun _ _ => .some
  | shift | axisScaling =>
      cases hook
      exact (accords_fillIn operands _ _ _).bind fun _ _ parts =>
        (accords_apply _ parts).map fun _ _ => .some
  | _ => exact absurd hook nofun

theorem Operator.accords_replace {replace : List (Node K) → Rule K (Node K)}
    (hook : (o.definition : Definition K).hooks.replace = some replace) :
    (replace ns).Accords c c.nodes (replace ms) := by
  cases o with
  | fromHomogeneous =>
      cases hook
      refine accords_onOne resembles (fun _ _ same => same) operands fun p p' hp =>
        (accords_select resembles hp 3).bind fun w w' hw => ?_
      refine (Recipe.Accords.each_same _ fun i => ?_).bind fun _ _ => accords_apply _
      exact (accords_select resembles hp i).bind fun x x' hx => accords_two "/" hx hw
  | _ => exact absurd hook nofun

end

/-! ## Derivatives -/

/-- A correspondence for hooks that differentiate: nodes are asked for and answered with, and the
generators of the axis rotations correspond to themselves. -/
structure Differentiating [Arithmetic K] (c : Correspondence K (Node K) (Node K)) : Prop where
  resembles : Node.Resembles c.nodes
  asked : ∀ ⦃a a'⦄, c.asked a a' → c.nodes a a'
  answered : ∀ ⦃a a'⦄, c.answered a a' → c.nodes a a'
  generator {id : NodeId} {r : AxisRotation} : axisRotations[id]? = some r →
    c.nodes (.constant id r.generator) (.constant id r.generator)

section

variable [Arithmetic K] {c : Correspondence K (Node K) (Node K)} (like : Differentiating c)

include like

theorem Differentiating.onOne {name : String} {f f' : Node K → Recipe K (Node K) (Node K) (Node K)}
    (operands : List.Forall₂ c.asked ns ms)
    (h : ∀ a a', c.asked a a' → (f a).Accords c c.nodes (f' a')) :
    (Standard.onOne name f ns).Accords c c.nodes (Standard.onOne name f' ms) :=
  accords_onOne like.resembles like.asked operands h

theorem Differentiating.onTwo {name : String}
    {f f' : Node K → Node K → Recipe K (Node K) (Node K) (Node K)}
    (operands : List.Forall₂ c.asked ns ms)
    (h : ∀ a a' b b', c.asked a a' → c.asked b b' → (f a b).Accords c c.nodes (f' a' b')) :
    (Standard.onTwo name f ns).Accords c c.nodes (Standard.onTwo name f' ms) :=
  accords_onTwo like.resembles like.asked operands h

theorem Differentiating.derive (ha : c.asked a a') :
    (Standard.derive a).Accords c c.nodes (Standard.derive a') :=
  .ask ha fun _ _ reply => .done (like.answered reply)

theorem Differentiating.productRule (ha : c.asked a a') (hb : c.asked b b') :
    (productRule a b).Accords c c.nodes (productRule a' b') :=
  (like.derive ha).bind fun _ _ hda => (like.derive hb).bind fun _ _ hdb =>
    (accords_two "*" (like.asked ha) hdb).bind fun _ _ left =>
    (accords_two "*" hda (like.asked hb)).bind fun _ _ right => accords_two "+" left right

variable [Numeral K] (o : Operator) (operands : List.Forall₂ c.asked ns ms)

include operands

theorem Operator.accords_deriv {wrt wrt' : Node K}
    {deriv : Node K → List (Node K) → Recipe K (Node K) (Node K) (Node K)}
    (hook : (o.definition : Definition K).hooks.deriv = some deriv) :
    (deriv wrt ns).Accords c c.nodes (deriv wrt' ms) := by
  cases o with
  | addition s h | subtraction s h =>
      cases hook
      exact like.onTwo operands fun a a' b b' ha hb => (like.derive ha).bind fun _ _ hda =>
        (like.derive hb).bind fun _ _ hdb => accords_two _ hda hdb
  | negation | transposition s h =>
      cases hook
      exact like.onOne operands fun a a' ha => (like.derive ha).bind fun _ _ => accords_one _
  | multiplication | scaling s h | matrixProduct s h | columnProduct m v h =>
      cases hook
      exact like.onTwo operands fun a a' b b' => like.productRule
  | division =>
      cases hook
      exact like.onTwo operands fun a a' b b' ha hb => (like.derive ha).bind fun _ _ hda =>
        (like.derive hb).bind fun _ _ hdb => (accords_two _ hda (like.asked hb)).bind
        fun _ _ left => (accords_two _ (like.asked ha) hdb).bind fun _ _ right =>
        (accords_two _ left right).bind fun _ _ numerator =>
        (accords_two _ (like.asked hb) (like.asked hb)).bind fun _ _ => accords_two _ numerator
  | cosine =>
      cases hook
      exact like.onOne operands fun a a' ha => (like.derive ha).bind fun _ _ hda =>
        (accords_one _ (like.asked ha)).bind fun _ _ sine => (accords_one _ sine).bind
        fun _ _ slope => accords_two _ slope hda
  | sine =>
      cases hook
      exact like.onOne operands fun a a' ha => (like.derive ha).bind fun _ _ hda =>
        (accords_one _ (like.asked ha)).bind fun _ _ slope => accords_two _ slope hda
  | innerProduct s h | outerProduct m v h =>
      cases hook
      exact like.onTwo operands fun a a' b b' ha hb => (like.derive ha).bind fun _ _ hda =>
        (like.derive hb).bind fun _ _ hdb => (accords_two _ hda (like.asked hb)).bind
        fun _ _ left => (accords_two _ (like.asked ha) hdb).bind fun _ _ => accords_two _ left
  | constructor s h =>
      cases hook
      exact (Recipe.Accords.each operands fun _ _ => like.derive).bind fun _ _ => accords_apply _
  | selector s h i lt =>
      cases hook
      exact like.onOne operands fun a a' ha => (like.derive ha).bind fun _ _ hda =>
        accords_select like.resembles hda i
  | axisRotation id r h =>
      cases hook
      exact like.onOne operands fun a a' ha => (like.derive ha).bind fun _ _ hda =>
        (accords_one _ (like.asked ha)).bind fun _ _ rotated =>
        (accords_two _ rotated (like.generator h)).bind fun _ _ => accords_two _ hda
  | shift | axisScaling =>
      cases hook
      exact (Recipe.Accords.each operands fun _ _ => like.derive).bind fun _ _ derivatives =>
        (accords_fillIn derivatives _ _ _).bind fun _ _ => accords_apply _
  | axisAngleRotation | fromHomogeneous => exact absurd hook nofun

end

/-! ## Gradients -/

/-- A correspondence for hooks that contribute to operands, which may be related more closely by `M`. -/
structure Contributing [Arithmetic K] (c : Correspondence K (Contribution K) Unit)
    (M : Node K → Node K → Prop) : Prop where
  resembles : Node.Resembles c.nodes
  closely : ∀ ⦃a a'⦄, M a a' → c.nodes a a'
  asked : ∀ ⦃a a' g g'⦄, M a a' → c.nodes g g' → c.asked ⟨a, g⟩ ⟨a', g'⟩
  generator {id : NodeId} {r : AxisRotation} : axisRotations[id]? = some r →
    c.nodes (.constant id r.generator) (.constant id r.generator)

section

variable [Arithmetic K] {c : Correspondence K (Contribution K) Unit} (like : Contributing c M)

include like

theorem Contributing.onOne {name : String} {f f' : Node K → Recipe K (Contribution K) Unit Unit}
    (operands : List.Forall₂ M ns ms)
    (h : ∀ a a', M a a' → (f a).Accords c (fun _ _ => True) (f' a')) :
    (Standard.onOne name f ns).Accords c (fun _ _ => True) (Standard.onOne name f' ms) :=
  accords_onOne like.resembles like.closely operands h

theorem Contributing.onTwo {name : String}
    {f f' : Node K → Node K → Recipe K (Contribution K) Unit Unit}
    (operands : List.Forall₂ M ns ms)
    (h : ∀ a a' b b', M a a' → M b b' → (f a b).Accords c (fun _ _ => True) (f' a' b')) :
    (Standard.onTwo name f ns).Accords c (fun _ _ => True) (Standard.onTwo name f' ms) :=
  accords_onTwo like.resembles like.closely operands h

theorem Contributing.contribute {g g' : Node K} (ha : M a a') (hg : c.nodes g g') :
    (Standard.contribute a g).Accords c (fun _ _ => True) (Standard.contribute a' g') :=
  .ask (like.asked ha hg) fun _ _ _ => .done trivial

/-- The components of a gradient are routed to operands, each that of a place. -/
theorem Contributing.routing {g g' : Node K} (hg : c.nodes g g') {l l' : List (Node K × Nat)}
    (parts : List.Forall₂ (fun p p' => M p.1 p'.1 ∧ p.2 = p'.2) l l') :
    (do
      let _ ← Recipe.each (fun (operand, position) => do
        let part ← .select g position
        Standard.contribute operand part) l
      return : Recipe K (Contribution K) Unit Unit).Accords c (fun _ _ => True) (do
      let _ ← Recipe.each (fun (operand, position) => do
        let part ← .select g' position
        Standard.contribute operand part) l'
      return) := by
  have routed (p p' : Node K × Nat) (related : M p.1 p'.1 ∧ p.2 = p'.2) :
      (Recipe.select g p.2 >>= Standard.contribute p.1).Accords c (fun _ _ => True)
        (Recipe.select g' p'.2 >>= Standard.contribute p'.1) := by
    rw [← related.2]
    exact (accords_select like.resembles hg p.2).bind fun _ _ => like.contribute related.1
  exact (Recipe.Accords.each parts routed).bind fun _ _ _ => .done trivial

variable [Numeral K] (o : Operator) (operands : List.Forall₂ M ns ms)

include operands

theorem Operator.accords_gradient {g g' : Node K} (hg : c.nodes g g')
    {gradient : Node K → List (Node K) → Recipe K (Contribution K) Unit Unit}
    (hook : (o.definition : Definition K).hooks.gradient = some gradient) :
    (gradient g ns).Accords c (fun _ _ => True) (gradient g' ms) := by
  cases o with
  | addition s h =>
      cases hook
      exact like.onTwo operands fun a a' b b' ha hb => (like.contribute ha hg).bind fun _ _ _ =>
        like.contribute hb hg
  | subtraction s h =>
      cases hook
      exact like.onTwo operands fun a a' b b' ha hb => (accords_negated s hg).bind fun _ _ minus =>
        (like.contribute ha hg).bind fun _ _ _ => like.contribute hb minus
  | negation | transposition s h =>
      cases hook
      exact like.onOne operands fun a a' ha => (accords_one _ hg).bind fun _ _ => like.contribute ha
  | multiplication =>
      cases hook
      exact like.onTwo operands fun a a' b b' ha hb => (accords_two _ hg (like.closely hb)).bind
        fun _ _ hda => (like.contribute ha hda).bind fun _ _ _ =>
        (accords_two _ (like.closely ha) hg).bind fun _ _ => like.contribute hb
  | scaling s h =>
      cases hook
      exact like.onTwo operands fun a a' b b' ha hb => (accords_two _ (like.closely hb) hg).bind
        fun _ _ hda => (like.contribute ha hda).bind fun _ _ _ =>
        (accords_two _ (like.closely ha) hg).bind fun _ _ => like.contribute hb
  | innerProduct s h =>
      cases hook
      exact like.onTwo operands fun a a' b b' ha hb => (accords_two _ hg (like.closely hb)).bind
        fun _ _ hda => (like.contribute ha hda).bind fun _ _ _ =>
        (accords_two _ hg (like.closely ha)).bind fun _ _ => like.contribute hb
  | division =>
      cases hook
      exact like.onTwo operands fun a a' b b' ha hb =>
        (accords_two _ (like.closely ha) (like.closely hb)).bind fun _ _ quotient =>
        (accords_two _ hg (like.closely hb)).bind fun _ _ hda => (accords_two _ hda quotient).bind
        fun _ _ product => (accords_one _ product).bind fun _ _ hdb => (like.contribute ha hda).bind
        fun _ _ _ => like.contribute hb hdb
  | cosine =>
      cases hook
      exact like.onOne operands fun a a' ha => (accords_one _ (like.closely ha)).bind
        fun _ _ sine => (accords_one _ sine).bind fun _ _ slope => (accords_two _ slope hg).bind
        fun _ _ => like.contribute ha
  | sine =>
      cases hook
      exact like.onOne operands fun a a' ha => (accords_one _ (like.closely ha)).bind
        fun _ _ slope => (accords_two _ slope hg).bind fun _ _ => like.contribute ha
  | matrixProduct s h =>
      cases hook
      exact like.onTwo operands fun a a' b b' ha hb => (accords_one _ (like.closely hb)).bind
        fun _ _ right => (accords_two _ hg right).bind fun _ _ hda => (like.contribute ha hda).bind
        fun _ _ _ => (accords_one _ (like.closely ha)).bind fun _ _ left =>
        (accords_two _ left hg).bind fun _ _ => like.contribute hb
  | columnProduct m v h =>
      cases hook
      exact like.onTwo operands fun a a' x x' ha hx => (accords_two _ hg (like.closely hx)).bind
        fun _ _ hda => (like.contribute ha hda).bind fun _ _ _ =>
        (accords_one _ (like.closely ha)).bind fun _ _ left => (accords_two _ left hg).bind
        fun _ _ => like.contribute hx
  | outerProduct m v h =>
      cases hook
      exact like.onTwo operands fun u u' v v' hu hv => (accords_two _ hg (like.closely hv)).bind
        fun _ _ hdu => (like.contribute hu hdu).bind fun _ _ _ => (accords_one _ hg).bind
        fun _ _ transposed => (accords_two _ transposed (like.closely hu)).bind fun _ _ =>
        like.contribute hv
  | constructor s h =>
      cases hook
      have places := relates_zip operands (List.range' 0 ns.length)
      rw [← List.zipIdx_eq_zip_range', operands.length_eq, ← List.zipIdx_eq_zip_range'] at places
      exact like.routing hg places
  | selector s h i lt =>
      cases hook
      exact like.onOne operands fun a a' ha => (accords_constant _).bind fun _ _ basis =>
        (accords_two _ hg basis).bind fun _ _ => like.contribute ha
  | axisRotation id r h =>
      cases hook
      exact like.onOne operands fun a a' ha => (accords_one _ (like.closely ha)).bind
        fun _ _ rotated => (accords_two _ rotated (like.generator h)).bind fun _ _ slope =>
        (accords_two _ hg slope).bind fun _ _ => like.contribute ha
  | shift | axisScaling =>
      cases hook
      exact like.routing hg (relates_zip operands _)
  | axisAngleRotation | fromHomogeneous => exact absurd hook nofun

end

end Standard

end SymbolicLinalg
