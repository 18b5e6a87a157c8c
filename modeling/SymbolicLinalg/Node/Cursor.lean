import Std.Data.HashSet
import SymbolicLinalg.Node

/-!
# Cursor — a graph handed out node by node

A cursor keeps a stack of open nodes, each with the place of the operand to descend to next, and the
identities of the nodes that it has handed out.  In each turn it descends from the innermost open
node to its next operand, unless that was handed out before, or closes the node when no operand is
left and hands it out, unless it was handed out before.

* `step?`: one turn;
* `weight`: what the open nodes have left, which every turn makes less of;
* `wellFounded_turn`: turns come to an end;
* `next?`: turns until a node is handed out;
* `toList`: all nodes that are handed out.
-/

namespace SymbolicLinalg

namespace Node

/-- The open nodes, innermost first, and the identities of those that were handed out. -/
structure Cursor (K : Type) where
  stack : List (Node K × Nat)
  visited : Std.HashSet NodeId

namespace Cursor

variable {K : Type} {t later : Cursor K}

def start (root : Node K) : Cursor K :=
  ⟨[(root, 0)], ∅⟩

/-- The node that is handed out in a turn, if any, and the cursor after it. -/
def step? (t : Cursor K) : Option (Option (Node K) × Cursor K) :=
  match t.stack with
  | [] => none
  | (n, i) :: rest =>
    match n.operands[i]? with
    | some m =>
      if t.visited.contains m.id then some (none, ⟨(n, i + 1) :: rest, t.visited⟩)
      else some (none, ⟨(m, 0) :: (n, i + 1) :: rest, t.visited⟩)
    | none =>
      -- a node was handed out while it was open only if its identity lies below it
      if t.visited.contains n.id then some (none, ⟨rest, t.visited⟩)
      else some (some n, ⟨rest, t.visited.insert n.id⟩)

/-! ## Turns come to an end -/

/-- The size of the operands that open nodes have left. -/
noncomputable def weight (t : Cursor K) : Nat :=
  t.stack.foldr (fun (n, i) outer => sizeOf (n.operands.drop i) + 1 + outer) 0

theorem sizeOf_operands_lt (n : Node K) : sizeOf n.operands < sizeOf n := by
  cases n with
  | constant id value =>
    have : 0 < sizeOf value := by
      cases value
      rw [Literal.mk.sizeOf_spec]
      omega
    rw [operands_constant, List.nil.sizeOf_spec, Node.constant.sizeOf_spec]
    omega
  | leaf id name shape =>
    have : 0 < sizeOf shape := by cases shape <;> exact Nat.one_pos
    rw [operands_leaf, List.nil.sizeOf_spec, Node.leaf.sizeOf_spec]
    omega
  | application id s operands =>
    rw [operands_application, Node.application.sizeOf_spec]
    omega

/-- An operand that is descended to weighs less than it did as one that was left. -/
theorem weight_operand {n m : Node K} {i : Nat} (h : n.operands[i]? = some m) :
    sizeOf (n.operands.drop (i + 1)) + sizeOf m.operands + 1 < sizeOf (n.operands.drop i) := by
  obtain ⟨bound, rfl⟩ := List.getElem?_eq_some_iff.mp h
  have smaller := sizeOf_operands_lt n.operands[i]
  rw [List.drop_eq_getElem_cons bound, List.cons.sizeOf_spec]
  omega

theorem weight_step {handed : Option (Node K)} (h : t.step? = some (handed, later)) :
    later.weight < t.weight := by
  rcases t with ⟨_ | ⟨⟨n, i⟩, rest⟩, visited⟩
  · cases h
  · cases operand : n.operands[i]? with
    | some m =>
      -- the operand is taken from the node's share and brings its own operands, which are less
      have less := weight_operand operand
      simp only [step?, operand] at h
      split at h <;> cases h <;> simp [weight] <;> omega
    | none =>
      have less : weight ⟨rest, visited⟩ < weight ⟨(n, i) :: rest, visited⟩ := by
        simp only [weight, List.foldr_cons]
        omega
      simp only [step?, operand] at h
      split at h <;> cases h <;> exact less

/-- One turn leads from a cursor to another. -/
def Turn (t later : Cursor K) : Prop :=
  ∃ handed, t.step? = some (handed, later)

/-- No cursor takes turns for ever. -/
theorem wellFounded_turn : WellFounded fun later t : Cursor K => t.Turn later :=
  Subrelation.wf (fun ⟨_, turn⟩ => weight_step turn) (measure weight).wf

/-- The next node that is handed out, and the cursor after it. -/
def next? (t : Cursor K) : Option (Node K × Cursor K) :=
  match _turn : t.step? with
  | none => none
  | some (some n, later) => some (n, later)
  | some (none, later) => later.next?
termination_by t.weight
decreasing_by exact weight_step _turn

theorem next?_of_handed {n : Node K} (h : t.step? = some (some n, later)) :
    t.next? = some (n, later) := by
  rw [next?]
  split <;> simp_all

theorem next?_of_turn (h : t.step? = some (none, later)) : t.next? = later.next? := by
  rw [next?]
  split <;> simp_all

theorem next?_of_done (h : t.step? = none) : t.next? = none := by
  rw [next?]
  split <;> simp_all

theorem weight_next {n : Node K} (h : t.next? = some (n, later)) : later.weight < t.weight := by
  induction t using next?.induct with
  | case1 t done =>
    rw [next?_of_done done] at h
    cases h
  | case2 t m after handed =>
    rw [next?_of_handed handed] at h
    cases h
    exact weight_step handed
  | case3 t after turn ih =>
    rw [next?_of_turn turn] at h
    exact Nat.lt_trans (ih h) (weight_step turn)

/-- All nodes that are handed out, in their order. -/
def toList (t : Cursor K) : List (Node K) :=
  match _node : t.next? with
  | none => []
  | some (n, later) => n :: later.toList
termination_by t.weight
decreasing_by exact weight_next _node

/-! ## All turns -/

theorem toList_of_handed {n : Node K} (h : t.step? = some (some n, later)) :
    t.toList = n :: later.toList := by
  rw [toList]
  split <;> simp_all [next?_of_handed h]

theorem toList_of_turn (h : t.step? = some (none, later)) : t.toList = later.toList := by
  rw [toList, toList, next?_of_turn h]

theorem toList_of_done (h : t.step? = none) : t.toList = [] := by
  rw [toList]
  split <;> simp_all [next?_of_done h]

end Cursor

end Node

end SymbolicLinalg
