import SymbolicLinalg.Gradient
import SymbolicLinalg.Proofs.PostOrder

/-!
# Relevance — the nodes that take part in a sweep

A sweep passes over nodes from which no target can be reached.  The search for the others goes through
the post-order once; what it marks are exactly the nodes above a target.
-/

namespace SymbolicLinalg

namespace Registry

variable {K : Type} {e n : Node K} {deps nodes : List (Node K)} {targets : Std.HashSet NodeId}

/-- One step of the search for relevant nodes. -/
def mark (targets : Std.HashSet NodeId) (n : Node K) (relevant : Std.HashSet NodeId) :
    Std.HashSet NodeId :=
  if targets.contains n.id || n.operands.any (relevant.contains ·.id) then relevant.insert n.id
  else relevant

theorem relevantNodes_eq_foldr (order : List (Node K)) :
    relevantNodes targets order = order.reverse.foldr (mark targets) ∅ := by
  rw [List.foldr_reverse]
  rfl

theorem mark_contains_iff {relevant : Std.HashSet NodeId} {above : Prop}
    (h : (targets.contains n.id || n.operands.any (relevant.contains ·.id)) = true ↔ above)
    (id : NodeId) :
    (mark targets n relevant).contains id = true ↔
      (n.id = id ∧ above) ∨ relevant.contains id = true := by
  rw [mark]
  by_cases marked : (targets.contains n.id || n.operands.any (relevant.contains ·.id)) = true
  · have holds := h.1 marked
    rw [if_pos marked]
    simp [holds]
  · have fails : ¬ above := fun holds => marked (h.2 holds)
    rw [if_neg marked]
    simp [fails]

/-- Only nodes that are searched are marked. -/
theorem exists_mem_of_relevantNodes {order : List (Node K)} {id : NodeId}
    (marked : (relevantNodes targets order).contains id = true) : ∃ n ∈ order, n.id = id := by
  have searched (nodes : List (Node K))
      (marked : (nodes.foldr (mark targets) ∅).contains id = true) : ∃ n ∈ nodes, n.id = id := by
    induction nodes with
    | nil => simp at marked
    | cons n rest ih =>
        rw [List.foldr_cons, mark_contains_iff Iff.rfl] at marked
        rcases marked with ⟨same, _⟩ | marked
        · exact ⟨n, List.mem_cons_self, same⟩
        · rcases ih marked with ⟨m, hm, same⟩
          exact ⟨m, List.mem_cons_of_mem n hm, same⟩
  rw [relevantNodes_eq_foldr] at marked
  rcases searched _ marked with ⟨n, hn, same⟩
  exact ⟨n, List.mem_reverse.1 hn, same⟩

/-- Of nodes before which their operands have been searched, exactly those above a target are
marked. -/
theorem foldr_mark_contains_iff (coherent : Node.Coherent (e :: deps))
    (sorted : Node.UsersFirst nodes) (below : ∀ n ∈ nodes, e.Reaches n) (id : NodeId) :
    (nodes.foldr (mark (.ofList (deps.map Node.id))) ∅).contains id = true ↔
      ∃ n ∈ nodes, n.id = id ∧ ∃ x ∈ deps, n.Reaches x := by
  induction sorted generalizing id with
  | nil => simp
  | @cons n rest operands _ _ ih =>
      have ih (id : NodeId) := ih (fun m hm => below m (List.mem_cons_of_mem n hm)) id
      have belowN := below n List.mem_cons_self
      -- a node is above a target if it is one or has an operand that is marked already
      have above : ((Std.HashSet.ofList (deps.map Node.id)).contains n.id ||
          n.operands.any fun m =>
            (rest.foldr (mark (.ofList (deps.map Node.id))) ∅).contains m.id) = true ↔
          ∃ x ∈ deps, n.Reaches x := by
        rw [Bool.or_eq_true, Std.HashSet.contains_ofList, List.contains_iff_mem, List.any_eq_true]
        constructor
        · -- a target, which is told apart from other nodes by its identity
          rintro (target | ⟨m, hm, marked⟩)
          · rcases List.mem_map.1 target with ⟨x, hx, same⟩
            have hx' : x ∈ e :: deps := List.mem_cons_of_mem e hx
            have : x = n := coherent x hx' e List.mem_cons_self x n (.refl x) belowN same
            exact ⟨x, hx, this ▸ .refl x⟩
          · rcases (ih m.id).1 marked with ⟨k, hk, same, x, hx, reaches⟩
            have : k = m := coherent.eq_of_reaches (below k (List.mem_cons_of_mem n hk))
              (belowN.trans (.of_mem_operands hm)) same
            exact ⟨x, hx, .step hm (this ▸ reaches)⟩
        · intro marked
          rcases marked with ⟨x, hx, reaches⟩
          cases reaches with
          | refl _ => exact .inl (List.mem_map_of_mem hx)
          | @step _ m _ hm reaches =>
              exact .inr ⟨m, hm, (ih m.id).2 ⟨m, operands m hm, rfl, x, hx, reaches⟩⟩
      rw [List.foldr_cons, List.exists_mem_cons_iff]
      exact (mark_contains_iff above id).trans (or_congr_right (ih id))

/-- The nodes of an expression that a sweep to some leaves takes to be above one of them. -/
def relevantTo (e : Node K) (deps : List (Node K)) : Std.HashSet NodeId :=
  relevantNodes (.ofList (deps.map Node.id)) e.postOrder

/-- The nodes that are found relevant are those above a target. -/
theorem relevantTo_contains_iff (coherent : Node.Coherent (e :: deps)) (below : e.Reaches n) :
    (relevantTo e deps).contains n.id = true ↔ ∃ x ∈ deps, n.Reaches x := by
  have alone : Node.Coherent [e] := coherent.of_subset (by simp)
  have all : ∀ m, m ∈ e.postOrder.reverse ↔ e.Reaches m := by
    intro m
    rw [List.mem_reverse, Node.mem_postOrder_iff alone]
  rw [relevantTo, relevantNodes_eq_foldr, foldr_mark_contains_iff coherent
    (Node.usersFirst_postOrder alone) fun m hm => (all m).1 hm]
  constructor
  · intro above
    rcases above with ⟨m, hm, same, reaches⟩
    have : m = n := coherent.eq_of_reaches ((all m).1 hm) below same
    exact this ▸ reaches
  · exact fun reaches => ⟨n, (all n).2 below, rfl, reaches⟩

/-- Leaves are accepted, and nothing else. -/
theorem forM_checkDependency_iff [Arithmetic K] [Numeral K] :
    deps.forM checkDependency = .ok () ↔ ∀ x ∈ deps, x.isLeaf = true := by
  induction deps with
  | nil => exact iff_of_true rfl fun _ h => absurd h List.not_mem_nil
  | cons x rest ih =>
      rw [List.forM, List.forall_mem_cons, ← ih]
      by_cases leaf : x.isLeaf = true
      · have accepted : checkDependency x = .ok () := if_pos leaf
        rw [accepted]
        exact (and_iff_right leaf).symm
      · have refused : checkDependency x = .error (.notALeaf x.text "gradient dependency") :=
          if_neg leaf
        rw [refused]
        exact iff_of_false nofun fun both => leaf both.1

end Registry

/-- What is above a leaf that is asked for is the leaf or an application. -/
theorem Node.leaf_or_application {K : Type} {m : Node K} {deps : List (Node K)}
    (leaves : ∀ x ∈ deps, x.isLeaf = true) (above : ∃ x ∈ deps, m.Reaches x) :
    (m.isLeaf = true ∧ m ∈ deps) ∨ (m.isLeaf = false ∧ m.isApplication = true) := by
  rcases above with ⟨x, hx, below⟩
  cases m with
  | application => exact .inr ⟨rfl, rfl⟩
  | leaf id name s =>
      obtain rfl := below.eq_of_operands_eq_nil rfl
      exact .inl ⟨rfl, hx⟩
  | constant id v =>
      have leaf := leaves x hx
      rw [below.eq_of_operands_eq_nil rfl] at leaf
      exact absurd leaf Bool.false_ne_true

namespace Gradients

variable {K : Type}

theorem get?_empty (x : Node K) : (empty : Gradients K).get? x = none := by
  simp [get?, empty]

theorem get?_congr (g : Gradients K) {x y : Node K} (same : x.id = y.id) : g.get? x = g.get? y := by
  rw [get?, get?, same]

theorem get?_insert (g : Gradients K) (y total x : Node K) :
    (g.insert y total).get? x = if y.id = x.id then some total else g.get? x := by
  rw [get?, insert, Std.HashMap.getElem?_insert]
  by_cases same : y.id = x.id
  · simp [same]
  · simp [same, get?]

end Gradients

end SymbolicLinalg
