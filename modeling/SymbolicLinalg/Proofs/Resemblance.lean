import Mathlib.Data.List.Forall2
import SymbolicLinalg.Build
import SymbolicLinalg.Node.Tree

/-!
# Resemblance — relations between nodes that look alike

Whatever a hook finds out about a node without regard to identities, it reads off the kind of the
node, off what the node carries and off the operands.  A relation between nodes resembles equality if
all of this is the same for related nodes, down to their operands, which are related in their turn.

* `Node.Like`: one node looks like another, as far as the operands do;
* `Node.Resembles`: all related nodes look alike;
* `Node.Resembles.tree`: they have one tree, if no leaf is related to another;
* `Registry.checkOperands_congr`: an operator that fits some operands fits others that look like them.
-/

namespace SymbolicLinalg

theorem map_eq_of_forall₂ {α β γ : Type} {R : α → β → Prop} {f : α → γ} {g : β → γ} {l : List α}
    {l' : List β} (h : List.Forall₂ R l l') (eq : ∀ a ∈ l, ∀ b, R a b → g b = f a) :
    l'.map g = l.map f := by
  induction h with
  | nil => rfl
  | cons head _ ih =>
      rw [List.map_cons, List.map_cons, eq _ List.mem_cons_self _ head,
        ih fun a ha => eq a (List.mem_cons_of_mem _ ha)]

theorem optionRel_imp {α β : Type} {R R' : α → β → Prop} {a? : Option α} {b? : Option β}
    (h : Option.Rel R a? b?) (sub : ∀ a b, R a b → R' a b) : Option.Rel R' a? b? := by
  cases h with
  | none => exact .none
  | some related => exact .some (sub _ _ related)

/-- What is related in both branches is related where the same test is made. -/
theorem relates_ite {α α' : Type} {R : α → α' → Prop} {p p' : Bool} {x y : α} {x' y' : α'}
    (same : p' = p) (first : R x x') (second : R y y') :
    R (if p then x else y) (if p' then x' else y') := by
  subst same
  split
  · exact first
  · exact second

namespace Node

variable {K : Type} {M : Node K → Node K → Prop} {n m : Node K} {ns ms : List (Node K)}

/-- The nodes are of one kind and carry the same, and their operands are related by `M`. -/
inductive Like (M : Node K → Node K → Prop) : Node K → Node K → Prop where
  | constant (i j : NodeId) (v : Literal K) : Like M (.constant i v) (.constant j v)
  | leaf (i j : NodeId) (name : String) (s : Shape) : Like M (.leaf i name s) (.leaf j name s)
  | application (i j : NodeId) (s : Signature) {ns ms : List (Node K)} :
      List.Forall₂ M ns ms → Like M (.application i s ns) (.application j s ms)

namespace Like

theorem shape (h : Like M n m) : m.shape = n.shape := by
  cases h <;> rfl

theorem operands (h : Like M n m) : List.Forall₂ M n.operands m.operands := by
  cases h with
  | constant | leaf => exact .nil
  | application _ _ _ operands => exact operands

theorem isLeaf (h : Like M n m) : m.isLeaf = n.isLeaf := by
  cases h <;> rfl

theorem literal? (h : Like M n m) : m.literal? = n.literal? := by
  cases h <;> rfl

theorem applies (h : Like M n m) (name : String) : m.applies name = n.applies name := by
  cases h <;> rfl

theorem isZero [Arithmetic K] (h : Like M n m) : m.isZero = n.isZero := by
  cases h <;> rfl

theorem isOne [Arithmetic K] (h : Like M n m) : m.isOne = n.isOne := by
  cases h <;> rfl

theorem imp {N : Node K → Node K → Prop} (h : Like M n m) (sub : ∀ n m, M n m → N n m) :
    Like N n m := by
  cases h with
  | constant i j v => exact .constant i j v
  | leaf i j name s => exact .leaf i j name s
  | application i j s operands => exact .application i j s (operands.imp sub)

end Like

/-- Related nodes look alike, and so do their operands, which are related themselves. -/
def Resembles (M : Node K → Node K → Prop) : Prop :=
  ∀ ⦃n m : Node K⦄, M n m → Like M n m

namespace Resembles

variable (resembles : Resembles M)

include resembles

theorem shapes (h : List.Forall₂ M ns ms) : ms.map Node.shape = ns.map Node.shape :=
  map_eq_of_forall₂ h fun _ _ _ related => (resembles related).shape

theorem literals? (h : List.Forall₂ M ns ms) : Node.literals? ms = Node.literals? ns := by
  induction h with
  | nil => rfl
  | cons head _ ih =>
      rw [Node.literals?, Node.literals?] at ih
      rw [Node.literals?, Node.literals?, List.mapM_cons, List.mapM_cons,
        (resembles head).literal?, ih]

theorem all_isZero [Arithmetic K] (h : List.Forall₂ M ns ms) :
    ms.all Node.isZero = ns.all Node.isZero := by
  induction h with
  | nil => rfl
  | cons head _ ih => rw [List.all_cons, List.all_cons, (resembles head).isZero, ih]

theorem all_isOne [Arithmetic K] (h : List.Forall₂ M ns ms) :
    ms.all Node.isOne = ns.all Node.isOne := by
  induction h with
  | nil => rfl
  | cons head _ ih => rw [List.all_cons, List.all_cons, (resembles head).isOne, ih]

/-- The tree forgets all identities but those of leaves. -/
theorem tree (leaves : ∀ i j name s, M (.leaf i name s) (.leaf j name s) → j = i) (h : M n m) :
    m.tree = n.tree := by
  induction n using Node.induct generalizing m with
  | constant id v =>
      rcases resembles h with _ | _ | _
      rfl
  | leaf id name s =>
      rcases resembles h with _ | ⟨_, j⟩ | _
      rw [leaves id j name s h]
  | application id s ns ih =>
      rcases resembles h with _ | _ | ⟨_, _, _, operands⟩
      rw [tree_application, tree_application, map_eq_of_forall₂ operands fun x hx _ => ih x hx]

end Resembles

/-- The nodes are one expression, however their graphs share subexpressions. -/
def SameTree (n m : Node K) : Prop :=
  m.tree = n.tree

theorem resembles_sameTree : Resembles (SameTree : Node K → Node K → Prop) := by
  intro n m same
  cases n <;> cases m
  case constant.constant i v j w =>
    obtain rfl := Tree.constant.inj same
    exact .constant i _ w
  case leaf.leaf i name s j name' s' =>
    obtain ⟨rfl, rfl, rfl⟩ := Tree.leaf.inj same
    exact .leaf _ _ _ _
  case application.application i s ns j t ms =>
    rw [SameTree, tree_application, tree_application] at same
    obtain ⟨rfl, operands⟩ := Tree.application.inj same
    refine .application i j _ ?_
    have same : List.Forall₂ (fun n m : Node K => n.tree = m.tree) ns ms := by
      rw [← List.forall₂_map_right_iff, ← List.forall₂_map_left_iff, List.forall₂_eq_eq_eq]
      exact operands.symm
    exact same.imp fun _ _ => Eq.symm
  all_goals exact absurd same (by simp [SameTree, tree])

end Node

namespace Registry

variable {K : Type} {ns ms : List (Node K)}

theorem mismatch?_congr (shapes : ms.map Node.shape = ns.map Node.shape) (position : Nat)
    (expected : List Shape) : mismatch? position ms expected = mismatch? position ns expected := by
  induction ns generalizing ms position expected with
  | nil => rw [List.map_eq_nil_iff.1 shapes]
  | cons n rest ih =>
      rcases List.map_eq_cons_iff.1 shapes with ⟨m, others, rfl, same, shapes⟩
      cases expected with
      | nil => rfl
      | cons s expected => rw [mismatch?, mismatch?, same, ih shapes]

theorem checkOperands_congr (shapes : ms.map Node.shape = ns.map Node.shape) (s : Signature) :
    checkOperands s ms = checkOperands s ns := by
  have length := congrArg List.length shapes
  rw [List.length_map, List.length_map] at length
  rw [checkOperands, checkOperands, length, shapes, mismatch?_congr shapes]

end Registry

end SymbolicLinalg
