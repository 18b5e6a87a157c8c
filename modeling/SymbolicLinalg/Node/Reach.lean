import SymbolicLinalg.Node

/-!
# Reach — the nodes below a node

* `Node.Reaches n x`: the node `x` occurs in the graph of `n`;
* `Node.AppliesOnly P n`: all operators applied in the graph of `n` have the property `P`;
* `Node.Coherent`: in the graphs of some nodes, identity determines the node;
* `Node.Older`: a graph was made before a given identity was handed out.

A graph that was built in a workspace is coherent and older than the next identity.  Both properties
pass from nodes to whatever they reach.
-/

namespace SymbolicLinalg

namespace Node

variable {K : Type}

inductive Reaches : Node K → Node K → Prop where
  | refl (n : Node K) : Reaches n n
  | step {n m x : Node K} : m ∈ n.operands → Reaches m x → Reaches n x

theorem Reaches.trans {n m x : Node K} (h : Reaches n m) (k : Reaches m x) : Reaches n x := by
  induction h with
  | refl _ => exact k
  | step operand _ ih => exact .step operand (ih k)

theorem Reaches.of_mem_operands {n m : Node K} (h : m ∈ n.operands) : Reaches n m :=
  .step h (.refl m)

/-- A node without operands reaches itself only. -/
theorem Reaches.eq_of_operands_eq_nil {n x : Node K} (h : Reaches n x) (leaf : n.operands = []) :
    x = n := by
  cases h with
  | refl _ => rfl
  | step operand _ =>
      rw [leaf] at operand
      exact absurd operand List.not_mem_nil

theorem reaches_iff {n x : Node K} : n.Reaches x ↔ x = n ∨ ∃ m ∈ n.operands, m.Reaches x := by
  constructor
  · intro h
    cases h with
    | refl _ => exact .inl rfl
    | step operand below => exact .inr ⟨_, operand, below⟩
  · rintro (rfl | ⟨m, operand, below⟩)
    · exact .refl x
    · exact .step operand below

/-! ## Applied operators -/

/-- Every operator that is applied in a graph has a property. -/
def AppliesOnly (P : Signature → Prop) (n : Node K) : Prop :=
  ∀ id s operands, n.Reaches (.application id s operands) → P s

section

variable {P : Signature → Prop} {n m : Node K}

theorem AppliesOnly.of_reaches (h : n.AppliesOnly P) (below : n.Reaches m) : m.AppliesOnly P :=
  fun id s operands hm => h id s operands (below.trans hm)

theorem AppliesOnly.imp {Q : Signature → Prop} (h : n.AppliesOnly P) (imp : ∀ s, P s → Q s) :
    n.AppliesOnly Q :=
  fun id s operands below => imp s (h id s operands below)

/-- Nothing is applied in a node that is no application. -/
theorem appliesOnly_of_plain (plain : n.isApplication = false) : n.AppliesOnly P := by
  intro id s operands below
  cases n with
  | constant | leaf => exact absurd (below.eq_of_operands_eq_nil rfl) nofun
  | application => exact absurd plain nofun

theorem appliesOnly_application {id : NodeId} {s : Signature} {operands : List (Node K)} :
    (application id s operands).AppliesOnly P ↔ P s ∧ ∀ m ∈ operands, m.AppliesOnly P := by
  constructor
  · intro h
    exact ⟨h id s operands (.refl _), fun m hm => h.of_reaches (.of_mem_operands hm)⟩
  · rintro ⟨first, others⟩ i t ns below
    rcases reaches_iff.1 below with same | ⟨m, hm, below⟩
    · obtain ⟨-, rfl, -⟩ := application.inj same
      exact first
    · exact others m hm i t ns below

end

/-! ## Graphs -/

/-- Nodes of one identity are one node, wherever in the graphs they are met. -/
def Coherent (nodes : List (Node K)) : Prop :=
  ∀ m ∈ nodes, ∀ n ∈ nodes, ∀ x y, m.Reaches x → n.Reaches y → x.id = y.id → x = y

/-- All identities of a graph come before a given one. -/
def Older (next : NodeId) (n : Node K) : Prop :=
  ∀ x, n.Reaches x → x.id < next

theorem Older.of_reaches {next : NodeId} {n m : Node K} (h : n.Older next) (below : n.Reaches m) :
    m.Older next :=
  fun x hx => h x (below.trans hx)

theorem Older.mono {next later : NodeId} {n : Node K} (h : n.Older next) (le : next ≤ later) :
    n.Older later :=
  fun x hx => Nat.lt_of_lt_of_le (h x hx) le

end Node

end SymbolicLinalg
