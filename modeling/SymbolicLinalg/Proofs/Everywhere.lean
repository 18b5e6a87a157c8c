import SymbolicLinalg.Proofs.Composition
import SymbolicLinalg.Proofs.Hooks

/-!
# Everywhere — properties of all applications in a graph

A property of the operator and the operands of an application may hold wherever something is applied
in a graph.  Construction keeps to such graphs, if the `optimize` hooks only decline where the
application that is made instead has the property: whatever else they answer lies below what they
were given or have made.

* `Node.Everywhere P`: all applications in the graph have the property;
* `Standard.make_everywhere`: construction with the standard operators keeps to such graphs.
-/

namespace SymbolicLinalg

variable {K : Type} {P : Signature → List (Node K) → Prop} {n m : Node K}

namespace Node

/-- The operator and the operands of every application in the graph have a property. -/
def Everywhere (P : Signature → List (Node K) → Prop) (n : Node K) : Prop :=
  ∀ id s operands, n.Reaches (.application id s operands) → P s operands

theorem Everywhere.of_reaches (h : n.Everywhere P) (below : n.Reaches m) : m.Everywhere P :=
  fun id s operands reached => h id s operands (below.trans reached)

theorem everywhere_of_plain (plain : n.isApplication = false) : n.Everywhere P := by
  intro id s operands below
  cases n with
  | constant | leaf => exact absurd (below.eq_of_operands_eq_nil rfl) nofun
  | application => exact absurd plain nofun

theorem everywhere_application {id : NodeId} {s : Signature} {operands : List (Node K)} :
    (application id s operands).Everywhere P ↔ P s operands ∧ ∀ m ∈ operands, m.Everywhere P := by
  constructor
  · intro h
    exact ⟨h id s operands (.refl _), fun m hm => h.of_reaches (.of_mem_operands hm)⟩
  · rintro ⟨here, parts⟩ i t ns below
    rcases reaches_iff.1 below with same | ⟨m, hm, below⟩
    · obtain ⟨-, rfl, rfl⟩ := application.inj same
      exact here
    · exact parts m hm i t ns below

theorem everywhere_of_below {given : List (Node K)} (all : ∀ m ∈ given, m.Everywhere P)
    (below : Below given n) : n.Everywhere P := by
  rcases below with ⟨k, hk, below⟩
  exact (all k hk).of_reaches below

end Node

namespace Standard

variable {names : String → Prop} {given operands : List (Node K)}
  {make : Construction K → Work K (Node K)}

/-- Graphs with a property of applications come out of construction if they go in. -/
def MakesEverywhere (names : String → Prop) (P : Signature → List (Node K) → Prop)
    (make : Construction K → Work K (Node K)) : Prop :=
  ∀ c given, c.Draws names given → (∀ n ∈ given, n.Everywhere P) →
    Triple (fun _ => True) (make c) (fun n _ => n.Everywhere P) fun _ _ => True

theorem follow_everywhere (makes : MakesEverywhere names P make) {α : Type} {rule : Rule K α}
    {post : List (Node K) → α → Prop} (draws : rule.Draws names given post)
    (all : ∀ n ∈ given, n.Everywhere P) :
    Triple (fun _ => True) (Registry.follow make rule)
      (fun a _ => ∃ now, post now a ∧ ∀ n ∈ now, n.Everywhere P) fun _ _ => True := by
  induction rule generalizing given with
  | done a => exact .value fun _ _ => ⟨given, draws, all⟩
  | refuse e => exact .refuse fun _ _ => trivial
  | make c next ih =>
      refine (makes c given draws.1 all).bind fun n => ?_
      intro w hn
      exact ih n (draws.2 n) (List.forall_mem_cons.2 ⟨hn, all⟩) w trivial
  | ask request next => exact request.elim

/-! ## Constants -/

theorem literals?_eq_some (constant : ∀ m ∈ operands, m.isConstant = true) :
    ∃ values, Node.literals? operands = some values := by
  induction operands with
  | nil => exact ⟨[], rfl⟩
  | cons n rest ih =>
      rw [List.forall_mem_cons] at constant
      rcases ih constant.2 with ⟨values, known⟩
      rw [Node.literals?] at known
      cases n with
      | constant id v => exact ⟨v :: values, by simp [Node.literals?, Node.literal?, known]⟩
      | leaf | application => exact absurd constant.1 Bool.false_ne_true

/-- Where all operands are constants, folding answers with one. -/
theorem foldingFirst_answers {fold : List (Literal K) → Literal K}
    {rule : List (Node K) → Rule K (Option (Node K))}
    (constant : ∀ m ∈ operands, m.isConstant = true) :
    Triple (fun _ => True) (Registry.follow make (foldingFirst fold rule operands))
      (fun n? _ => n? ≠ none) fun _ _ => True := by
  rcases literals?_eq_some constant with ⟨values, known⟩
  rw [foldingFirst, known]
  refine Triple.bind (m := fun _ _ => True) ?_ fun n => .value fun _ _ => Option.some_ne_none n
  intro w _
  rcases (make (.constant (fold values))).run.run w with ⟨_ | _, _⟩ <;> trivial

/-! ## Construction -/

variable [Arithmetic K] [Numeral K] {o : Operator}

/-- Where the `optimize` hook declines, the application that is made instead has the property. -/
def Declines (P : Signature → List (Node K) → Prop) (make : Construction K → Work K (Node K))
    (o : Operator) (operands : List (Node K)) : Prop :=
  Triple (fun _ => True) (Registry.simplify? make o.definition operands)
    (fun n? _ => n? = none → P o.signature operands) fun _ _ => True

theorem Declines.of_property (holds : P o.signature operands) : Declines P make o operands := by
  intro w _
  rcases (Registry.simplify? make o.definition operands).run.run w with ⟨_ | _, _⟩
  · trivial
  · exact fun _ => holds

/-- An operator that folds first does not decline over constants. -/
theorem Declines.of_constants {fold : List (Literal K) → Literal K}
    {rule : List (Node K) → Rule K (Option (Node K))}
    (folds : (o.definition : Definition K).hooks.optimize = some (foldingFirst fold rule))
    (constant : ∀ m ∈ operands, m.isConstant = true) : Declines P make o operands := by
  rw [Declines, Registry.simplify?, folds]
  exact (foldingFirst_answers constant).relax fun _ _ answered none => absurd none answered

theorem simplify?_everywhere (makes : MakesEverywhere names P make) (o : Operator)
    (minus : (∃ s h, o = .subtraction s h) → names "-") (times : names "*")
    (all : ∀ m ∈ operands, m.Everywhere P) :
    Triple (fun _ => True) (Registry.simplify? make o.definition operands)
      (fun n? _ => ∀ n ∈ n?, n.Everywhere P) fun _ _ => True := by
  rw [Registry.simplify?]
  cases hook : (o.definition : Definition K).hooks.optimize with
  | none => exact .value fun _ _ n hn => absurd hn (Option.not_mem_none n)
  | some optimize =>
      have below : ∀ m ∈ operands, Node.Below operands m := fun m hm => .of_mem hm
      have drawn := draws_optimize o minus times below hook
      refine (follow_everywhere makes drawn all).relax fun n? w hs n hn => ?_
      rcases hs with ⟨now, offered, all⟩
      exact Node.everywhere_of_below all (offered n hn)

theorem buildWith_everywhere (makes : MakesEverywhere names P make) (o : Operator)
    (minus : (∃ s h, o = .subtraction s h) → names "-") (times : names "*")
    (declines : operands.map Node.shape = o.signature.operands → Declines P make o operands)
    (all : ∀ m ∈ operands, m.Everywhere P) :
    Triple (fun _ => True) (Registry.buildWith make o.definition operands)
      (fun n _ => n.Everywhere P) fun _ _ => True := by
  rw [Registry.buildWith]
  refine Triple.bind (m := fun _ _ => operands.map Node.shape = o.signature.operands ∧ True)
    (.ofExcept (fun _ accepted _ _ => ⟨?_, trivial⟩) fun _ _ _ _ => trivial)
    fun _ => .assuming fun shapes => ?_
  · rw [← o.definition_signature (K := K)]
    exact Registry.shapes_of_checkOperands_eq_ok accepted
  · have simplified := (simplify?_everywhere makes o minus times all).both (declines shapes)
    refine Triple.bind (simplified.weaken (fun _ _ => ⟨trivial, trivial⟩) (fun _ _ => id)
      fun _ _ _ => trivial) fun n? w hs => ?_
    cases n? with
    | none =>
        have made : (Node.application w.nextId o.signature operands).Everywhere P :=
          Node.everywhere_application.2 ⟨hs.2 rfl, all⟩
        rw [← o.definition_signature (K := K)] at made
        exact made
    | some n =>
        rw [Registry.settle]
        split
        · trivial
        · exact hs.1 n rfl

/-- Construction keeps to graphs with the property, if the operators of some names decline only where
new applications have it. -/
theorem make_everywhere (minus : names "-") (times : names "*")
    (declines : ∀ make operands, ∀ o : Operator, names o.signature.name →
      operands.map Node.shape = o.signature.operands → Declines P make o operands) :
    MakesEverywhere names P (Registry.standard : Registry K).make := by
  have built {make : Construction K → Work K (Node K)} (makes : MakesEverywhere names P make)
      {resolved : Except Error (Definition K)} {name : String} (allowed : names name)
      {given operands : List (Node K)}
      (known : ∀ d, resolved = .ok d →
        d ∈ (Registry.standard : Registry K).definitions ∧ d.signature.name = name)
      (all : ∀ n ∈ given, n.Everywhere P) (below : ∀ m ∈ operands, Node.Below given m) :
      Triple (fun _ => True)
        (Work.ofExcept resolved >>= fun d => Registry.buildWith make d operands)
        (fun n _ => n.Everywhere P) fun _ _ => True := by
    refine Triple.bind (m := fun d _ => (d ∈ (Registry.standard : Registry K).definitions ∧
        d.signature.name = name) ∧ True)
      (.ofExcept (fun d found _ _ => ⟨known d found, trivial⟩) fun _ _ _ _ => trivial)
      fun d => .assuming fun ⟨hd, same⟩ => ?_
    rcases exists_operator hd with ⟨o, rfl⟩
    rw [o.definition_signature] at same
    exact buildWith_everywhere makes o (fun _ => minus) times
      (declines make operands o (same ▸ allowed))
      fun m hm => Node.everywhere_of_below all (below m hm)
  have levels (depth : Nat) :
      MakesEverywhere names P ((Registry.standard : Registry K).makeWithin depth) := by
    induction depth with
    | zero => exact fun _ _ _ _ => .giveUp fun _ _ => trivial
    | succ depth ih =>
        intro c given drawn all
        cases c with
        | constant | leaf => exact fun w _ => Node.everywhere_of_plain rfl
        | apply name operands =>
            exact built ih drawn.1 (fun d found => Registry.mem_of_resolve_eq_ok found) all drawn.2
        | applyFor result name operands =>
            exact built ih drawn.1 (fun d found => Registry.mem_of_resolveAs_eq_ok found) all
              drawn.2
  exact levels nestingLimit

end Standard

end SymbolicLinalg
