import Std.Data.HashSet
import SymbolicLinalg.Node

/-!
# PostOrder — every node of a graph once, operands first

The nodes are met depth first and from left to right.  A node is listed when all its operands have
been, and a node met again is passed over, so each identity appears exactly once and the root comes
last.
-/

namespace SymbolicLinalg

namespace Node

variable {K : Type}

/-- The nodes listed so far, the last one first, and their identities. -/
structure Listing (K : Type) where
  listed : List (Node K)
  seen : Std.HashSet NodeId

namespace Listing

def empty : Listing K :=
  ⟨[], ∅⟩

def push (l : Listing K) (n : Node K) : Listing K :=
  ⟨n :: l.listed, l.seen.insert n.id⟩

/-- The listed nodes in the order of their listing. -/
def toList (l : Listing K) : List (Node K) :=
  l.listed.reverse

@[simp] theorem toList_empty : (empty : Listing K).toList = [] := rfl

@[simp] theorem toList_push (l : Listing K) (n : Node K) : (l.push n).toList = l.toList ++ [n] := by
  simp [toList, push]

/-- The identities are those of the listed nodes. -/
def Tracks (l : Listing K) : Prop :=
  ∀ id, l.seen.contains id = true ↔ ∃ n ∈ l.toList, n.id = id

theorem tracks_empty : (empty : Listing K).Tracks := by
  intro id
  simp [empty, toList]

theorem Tracks.push {l : Listing K} (h : l.Tracks) (n : Node K) : (l.push n).Tracks := by
  intro id
  have before := h id
  have now : (l.push n).seen.contains id = true ↔ n.id = id ∨ l.seen.contains id = true := by
    simp [Listing.push]
  rw [now, before, toList_push]
  constructor
  · rintro (rfl | ⟨m, hm, rfl⟩)
    · exact ⟨n, by simp, rfl⟩
    · exact ⟨m, by simp [hm], rfl⟩
  · rintro ⟨m, hm, rfl⟩
    rcases List.mem_append.1 hm with hm | hm
    · exact .inr ⟨m, hm, rfl⟩
    · rw [List.mem_singleton.1 hm]
      exact .inl rfl

end Listing

mutual

/-- Adds the nodes below a node, and then the node itself. -/
def visit (l : Listing K) (n : Node K) : Listing K :=
  if l.seen.contains n.id then l
  else
    match n with
    | .constant id value => l.push (.constant id value)
    | .leaf id name shape => l.push (.leaf id name shape)
    | .application id operator operands =>
        (visitAll l operands).push (.application id operator operands)

def visitAll (l : Listing K) (nodes : List (Node K)) : Listing K :=
  match nodes with
  | [] => l
  | n :: rest => visitAll (visit l n) rest

end

/-- The distinct nodes of a graph in post-order. -/
def postOrder (n : Node K) : List (Node K) :=
  (visit .empty n).toList

/-- How many distinct nodes a graph has. -/
def count (n : Node K) : Nat :=
  n.postOrder.length

/-! ## A graph as a table -/

/-- One entry of a table: an application names its operands by their places. -/
inductive Entry (K : Type) where
  | constant (value : Literal K)
  | leaf (name : String) (shape : Shape)
  | application (operator : Signature) (operands : List Nat)

/-- The place of a node in a list of nodes. -/
def placeIn (nodes : List (Node K)) (n : Node K) : Nat :=
  nodes.findIdx (·.same n)

def entry (nodes : List (Node K)) : Node K → Entry K
  | .constant _ value => .constant value
  | .leaf _ name shape => .leaf name shape
  | .application _ operator operands => .application operator (operands.map (placeIn nodes))

/-- The graph as a list of entries in post-order, in which operands stand before their users. -/
def table (n : Node K) : List (Entry K) :=
  n.postOrder.map (entry n.postOrder)

end Node

end SymbolicLinalg
