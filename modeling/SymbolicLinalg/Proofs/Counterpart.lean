import SymbolicLinalg.Build
import SymbolicLinalg.Node.Reach
import SymbolicLinalg.Proofs.Mirror
import SymbolicLinalg.Proofs.Resemblance

/-!
# Counterpart — the nodes of two runs that do the same

Two runs that do the same make the same nodes in the same order, but under identities of their own:
each counts on from where its workspace stands.  What was there before has the same identities in
both.  A node of the one run then has a counterpart in the other, with the same tree.

* `Comparison.Pairs`: which identities correspond; this is one to one;
* `Comparison.Matches`: which nodes are counterparts of each other;
* `Matches.tree`: counterparts have one tree, and pass all tests that hooks make alike.
-/

namespace SymbolicLinalg

/-- Two runs: the identities that are next when they begin, and the operators that are applied in
both. -/
structure Comparison where
  first : Nat
  second : Nat
  known : Signature → Prop

namespace Comparison

variable {K : Type} {c : Comparison}

/-! ## Identities -/

/-- Identities from before the runs are the same, and later ones are handed out in step. -/
def Pairs (c : Comparison) (i j : Nat) : Prop :=
  (i = j ∧ i < c.first ∧ i < c.second) ∨ ∃ k, i = c.first + k ∧ j = c.second + k

theorem Pairs.eq_iff {i j i' j' : Nat} (h : c.Pairs i j) (h' : c.Pairs i' j') :
    i = i' ↔ j = j' := by
  -- an identity from before the runs lies below both starts, a later one above
  rcases h with ⟨rfl, _, _⟩ | ⟨k, rfl, rfl⟩ <;> rcases h' with ⟨rfl, _, _⟩ | ⟨k', rfl, rfl⟩ <;> omega

/-- Both workspaces have handed out equally many identities. -/
def Keeps (c : Comparison) (w w' : Workspace K) : Prop :=
  ∃ k, w.nextId = c.first + k ∧ w'.nextId = c.second + k

/-! ## Nodes -/

/-- A node and its counterpart.  Leaves are not made in the runs. -/
inductive Matches (c : Comparison) : Node K → Node K → Prop where
  | constant {i j : NodeId} (v : Literal K) :
      c.Pairs i j → Matches c (.constant i v) (.constant j v)
  | leaf {i : NodeId} (name : String) (s : Shape) :
      c.Pairs i i → Matches c (.leaf i name s) (.leaf i name s)
  | application {i j : NodeId} {s : Signature} {ns ms : List (Node K)} :
      c.Pairs i j → c.known s → List.Forall₂ (Matches c) ns ms →
      Matches c (.application i s ns) (.application j s ms)

/-- All nodes of two lists are counterparts, place by place. -/
abbrev AllMatch (c : Comparison) (ns ms : List (Node K)) : Prop :=
  List.Forall₂ c.Matches ns ms

namespace Matches

variable {n m n' m' : Node K} {ns ms : List (Node K)}

theorem pairs (h : c.Matches n m) : c.Pairs n.id m.id := by
  cases h with
  | constant _ ids => exact ids
  | leaf _ _ ids => exact ids
  | application ids _ _ => exact ids

/-- Counterparts look alike. -/
theorem resembles : Node.Resembles (c.Matches : Node K → Node K → Prop) := by
  intro n m h
  cases h with
  | constant v _ => exact .constant _ _ v
  | leaf name s _ => exact .leaf _ _ name s
  | application _ _ operands => exact .application _ _ _ operands

theorem shape (h : c.Matches n m) : m.shape = n.shape :=
  (resembles h).shape

theorem isZero [Arithmetic K] (h : c.Matches n m) : m.isZero = n.isZero :=
  (resembles h).isZero

theorem isLeaf (h : c.Matches n m) : m.isLeaf = n.isLeaf :=
  (resembles h).isLeaf

theorem same (h : c.Matches n m) (h' : c.Matches n' m') : m.same m' = n.same n' := by
  have ids := h.pairs.eq_iff h'.pairs
  rw [Node.same, Node.same, Bool.eq_iff_iff]
  simpa using ids.symm

theorem tree (h : c.Matches n m) : m.tree = n.tree :=
  resembles.tree (fun i j name s h => by cases h; rfl) h

theorem map_tree {n? m? : Option (Node K)} (h : Option.Rel c.Matches n? m?) :
    m?.map Node.tree = n?.map Node.tree := by
  cases h with
  | none => rfl
  | some counterparts => exact congrArg some counterparts.tree

/-- An expression from before the runs is its own counterpart. -/
theorem refl (known : n.AppliesOnly c.known) (first : n.Older c.first) (second : n.Older c.second) :
    c.Matches n n := by
  induction n using Node.induct with
  | constant id v => exact .constant v (.inl ⟨rfl, first _ (.refl _), second _ (.refl _)⟩)
  | leaf id name s => exact .leaf name s (.inl ⟨rfl, first _ (.refl _), second _ (.refl _)⟩)
  | application id s ns ih =>
      refine .application (.inl ⟨rfl, first _ (.refl _), second _ (.refl _)⟩)
        (known _ _ _ (.refl _)) (List.forall₂_same.2 fun m hm => ?_)
      have below : (Node.application id s ns).Reaches m := .of_mem_operands hm
      exact ih m hm (known.of_reaches below) (first.of_reaches below) (second.of_reaches below)

/-! ### Lists -/

theorem all_shape (h : c.AllMatch ns ms) : ms.map Node.shape = ns.map Node.shape :=
  resembles.shapes h

theorem all_literals? (h : c.AllMatch ns ms) : Node.literals? ms = Node.literals? ns :=
  resembles.literals? h

theorem all_allSame {ns' ms' : List (Node K)} (h : c.AllMatch ns ms)
    (h' : c.AllMatch ns' ms') : Node.allSame ms ms' = Node.allSame ns ns' := by
  induction h generalizing ns' ms' with
  | nil => rfl
  | cons head _ ih =>
      cases h' with
      | nil => rfl
      | cons head' rest' => rw [Node.allSame, Node.allSame, head.same head', ih rest']

end Matches

end Comparison

end SymbolicLinalg
