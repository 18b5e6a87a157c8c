import SymbolicLinalg.Build
import SymbolicLinalg.Proofs.Operator
import SymbolicLinalg.Proofs.Triple
import SymbolicLinalg.Node.Reach

/-!
# Routing — hooks contribute to their own operands

`Recipe.AsksOnly` says of a recipe that all its requests satisfy something, whatever the registry
makes for it on the way.  A `gradient` hook routes to its own operands if this is what it asks for;
all hooks of the standard operators do.
-/

namespace SymbolicLinalg

variable {K : Type}

/-- What a recipe asks for satisfies `P`, whatever nodes the registry makes for it. -/
def Recipe.AsksOnly {ρ σ α : Type} (r : Registry K) (P : ρ → Prop) : Recipe K ρ σ α → Prop
  | .done _ => True
  | .refuse _ => True
  | .make c next => ∀ w n w', (r.make c).runIn w = (.ok n, w') → (next n).AsksOnly r P
  | .ask request next => P request ∧ ∀ answer, (next answer).AsksOnly r P

/-- The hooks of an expression contribute to their own operands only. -/
def Registry.RoutesToOperands (r : Registry K) (e : Node K) : Prop :=
  ∀ id s operands, e.Reaches (.application id s operands) →
    ∀ gradient, (r.hooks s).gradient = some gradient →
      ∀ g, (gradient g operands).AsksOnly r fun c => c.operand ∈ operands

/-! ## Rules -/

namespace Recipe.AsksOnly

variable {ρ σ α β : Type} {r : Registry K} {P Q : ρ → Prop}

theorem imp {recipe : Recipe K ρ σ α} (h : recipe.AsksOnly r P)
    (weaker : ∀ request, P request → Q request) : recipe.AsksOnly r Q := by
  induction recipe with
  | done _ | refuse _ => trivial
  | make c next ih => exact fun w n w' run => ih n (h w n w' run)
  | ask request next ih => exact ⟨weaker request h.1, fun answer => ih answer (h.2 answer)⟩

theorem bind {recipe : Recipe K ρ σ α} {next : α → Recipe K ρ σ β} (h : recipe.AsksOnly r P)
    (k : ∀ a, (next a).AsksOnly r P) : (recipe >>= next).AsksOnly r P := by
  change (Recipe.bind recipe next).AsksOnly r P
  induction recipe with
  | done a => exact k a
  | refuse _ => trivial
  | make c rest ih => exact fun w n w' run => ih n (h w n w' run)
  | ask request rest ih => exact ⟨h.1, fun answer => ih answer (h.2 answer)⟩

theorem build (c : Construction K) : (Recipe.build c : Recipe K ρ σ (Node K)).AsksOnly r P :=
  fun _ _ _ _ => trivial

theorem request {q : ρ} (h : P q) : (Recipe.request q : Recipe K ρ σ σ).AsksOnly r P :=
  ⟨h, fun _ => trivial⟩

theorem each {f : α → Recipe K ρ σ β} {l : List α} (h : ∀ a ∈ l, (f a).AsksOnly r P) :
    (Recipe.each f l).AsksOnly r P := by
  induction l with
  | nil => trivial
  | cons a rest ih =>
      refine (h a List.mem_cons_self).bind fun b => ?_
      exact (ih fun x hx => h x (List.mem_cons_of_mem a hx)).bind fun _ => trivial

/-- Carrying a recipe out keeps what constructions keep, and the requests that the recipe puts. -/
theorem run_keeps {T : Type} {keeps : Workspace K × T → Prop} {recipe : Recipe K ρ σ α}
    {answer : ρ → StatefulWork K T σ} (asks : recipe.AsksOnly r P)
    (makes : ∀ c, Triple keeps (Work.within (r.make c)) (fun _ => keeps) fun _ _ => True)
    (answers : ∀ request, P request →
      Triple keeps (answer request) (fun _ => keeps) fun _ _ => True) :
    Triple keeps
      (recipe.run (fun c => Work.within (r.make c)) answer fun e => Work.within (Work.refuse e))
      (fun _ => keeps) fun _ _ => True := by
  induction recipe with
  | done _ => exact .value fun _ => id
  | refuse _ => exact .within fun _ => .refuse fun _ _ => trivial
  | make c next ih =>
      refine (makes c).ran.bind fun n s made => ?_
      rcases made with ⟨⟨start, run⟩, kept⟩
      exact ih n (asks start.1 n s.1 (Work.runIn_of_within run)) s kept
  | ask request next ih => exact (answers request asks.1).bind fun answer => ih answer (asks.2 answer)

end Recipe.AsksOnly

namespace Standard

variable {r : Registry K} {a b g : Node K} {operands : List (Node K)}

/-! ## Standard hooks -/

/-- A recipe contributes to some operands only. -/
abbrev Routes {α : Type} (r : Registry K) (operands : List (Node K))
    (recipe : Recipe K (Contribution K) Unit α) : Prop :=
  recipe.AsksOnly r fun c => c.operand ∈ operands

theorem routes_contribute (h : a ∈ operands) (g : Node K) : Routes r operands (contribute a g) :=
  .request h

theorem routes_onOne {name : String} {f : Node K → Recipe K (Contribution K) Unit Unit}
    (h : ∀ a, Routes r [a] (f a)) : Routes r operands (onOne name f operands) :=
  match operands with
  | [a] => h a
  | [] | _ :: _ :: _ => trivial

theorem routes_onTwo {name : String} {f : Node K → Node K → Recipe K (Contribution K) Unit Unit}
    (h : ∀ a b, Routes r [a, b] (f a b)) : Routes r operands (onTwo name f operands) :=
  match operands with
  | [a, b] => h a b
  | [] | [_] | _ :: _ :: _ :: _ => trivial

theorem routes_first (g : Node K) : Routes r [a, b] (contribute a g) :=
  routes_contribute List.mem_cons_self g

theorem routes_second (g : Node K) : Routes r [a, b] (contribute b g) :=
  routes_contribute (List.mem_cons_of_mem a List.mem_cons_self) g

theorem routes_only (g : Node K) : Routes r [a] (contribute a g) :=
  routes_contribute List.mem_cons_self g

/-- Parts of a gradient go to the operands at some places. -/
theorem routes_zipped {places : List (Node K × Nat)} (h : ∀ p ∈ places, p.1 ∈ operands) :
    Routes r operands (do
      let _ ← Recipe.each
        (fun (p : Node K × Nat) => do
          let part ← .select g p.2
          contribute p.1 part)
        places
      return) := by
  refine .bind (.each fun p hp => ?_) fun _ => trivial
  exact .bind (.build _) fun part => routes_contribute (h p hp) part

variable [Arithmetic K]

theorem routes_negated (s : Shape) (a : Node K) : Routes r operands (negated s a) := by
  rw [negated]
  split
  · exact .build _
  · exact .bind (.build _) fun _ => .build _

variable [Numeral K]

theorem Operator.gradient_routes (o : Operator)
    {gradient : Node K → List (Node K) → Recipe K (Contribution K) Unit Unit}
    (hook : (o.definition : Definition K).hooks.gradient = some gradient) (g : Node K)
    (operands : List (Node K)) : Routes r operands (gradient g operands) := by
  cases o with
  | addition =>
      cases hook
      exact routes_onTwo fun a b => .bind (routes_first g) fun _ => routes_second g
  | subtraction s =>
      cases hook
      refine routes_onTwo fun a b => .bind (routes_negated s g) fun minus => ?_
      exact .bind (routes_first g) fun _ => routes_second minus
  | negation | transposition =>
      cases hook
      exact routes_onOne fun a => .bind (.build _) fun part => routes_only part
  | multiplication | scaling | innerProduct =>
      cases hook
      refine routes_onTwo fun a b => .bind (.build _) fun left => .bind (routes_first left) fun _ => ?_
      exact .bind (.build _) fun right => routes_second right
  | sine | selector =>
      cases hook
      refine routes_onOne fun a => .bind (.build _) fun _ => ?_
      exact .bind (.build _) fun part => routes_only part
  | cosine | axisRotation =>
      cases hook
      refine routes_onOne fun a => .bind (.build _) fun _ => .bind (.build _) fun _ => ?_
      exact .bind (.build _) fun part => routes_only part
  | division =>
      cases hook
      refine routes_onTwo fun a b => .bind (.build _) fun _ => .bind (.build _) fun left => ?_
      refine .bind (.build _) fun _ => .bind (.build _) fun right => ?_
      exact .bind (routes_first left) fun _ => routes_second right
  | matrixProduct =>
      cases hook
      refine routes_onTwo fun a b => .bind (.build _) fun _ => .bind (.build _) fun left => ?_
      refine .bind (routes_first left) fun _ => .bind (.build _) fun _ => ?_
      exact .bind (.build _) fun right => routes_second right
  | columnProduct | outerProduct =>
      cases hook
      refine routes_onTwo fun a b => .bind (.build _) fun left => .bind (routes_first left) fun _ => ?_
      refine .bind (.build _) fun _ => ?_
      exact .bind (.build _) fun right => routes_second right
  | constructor =>
      cases hook
      exact routes_zipped fun p hp => List.fst_mem_of_mem_zipIdx hp
  | shift | axisScaling =>
      cases hook
      exact routes_zipped fun p hp => (List.of_mem_zip hp).1
  | axisAngleRotation | fromHomogeneous => exact absurd hook nofun

theorem routesToOperands (e : Node K) : (Registry.standard : Registry K).RoutesToOperands e := by
  intro id s operands _ gradient hook g
  rcases operator_of_hook (·.gradient) rfl hook with ⟨o, _, hook⟩
  exact o.gradient_routes hook g operands

end Standard

end SymbolicLinalg
