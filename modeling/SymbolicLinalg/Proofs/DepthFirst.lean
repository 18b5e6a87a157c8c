import SymbolicLinalg.Node.Cursor
import SymbolicLinalg.Proofs.PostOrder

/-!
# DepthFirst — the order in which nodes are handed out

Going depth first and from left to right, a node comes after its operands, once for every path to it
from the root.  The post-order keeps the first of these, and a cursor hands the nodes out in
post-order.

* `depthFirst`: the nodes along all paths;
* `postOrder_eq_eraseDupsBy`: the post-order has their first occurrences;
* `Cursor.toList_start`: the cursor hands out the post-order;
* `Cursor.toList_spec`: its nodes, their number and their order.
-/

namespace SymbolicLinalg

namespace Node

variable {K : Type}

/-! ## All paths -/

mutual

/-- The nodes of a graph, each after its operands, once for every path to it. -/
def depthFirst (n : Node K) : List (Node K) :=
  match n with
  | .constant id value => [.constant id value]
  | .leaf id name shape => [.leaf id name shape]
  | .application id operator operands =>
      depthFirstAll operands ++ [.application id operator operands]

def depthFirstAll (nodes : List (Node K)) : List (Node K) :=
  match nodes with
  | [] => []
  | n :: rest => depthFirst n ++ depthFirstAll rest

end

/-- Induction on the operands, whatever the node is. -/
theorem induct_operands {motive : Node K → Prop}
    (node : ∀ n, (∀ m ∈ n.operands, motive m) → motive n) (n : Node K) : motive n :=
  induct (fun id v => node (.constant id v) fun _ h => absurd h List.not_mem_nil)
    (fun id name s => node (.leaf id name s) fun _ h => absurd h List.not_mem_nil)
    (fun id s operands => node (.application id s operands)) n

theorem depthFirst_eq (n : Node K) : n.depthFirst = depthFirstAll n.operands ++ [n] := by
  cases n with
  | constant | leaf => simp [depthFirst, depthFirstAll]
  | application => rw [depthFirst, operands_application]

theorem visit_eq (l : Listing K) (n : Node K) :
    visit l n = if l.seen.contains n.id then l else (visitAll l n.operands).push n := by
  cases n with
  | constant | leaf => simp [visit, visitAll]
  | application => rw [visit, operands_application, id_application]

theorem reaches_of_mem_depthFirstAll {nodes : List (Node K)} {x : Node K}
    (each : ∀ n ∈ nodes, x ∈ n.depthFirst → n.Reaches x) (hx : x ∈ depthFirstAll nodes) :
    ∃ n ∈ nodes, n.Reaches x := by
  induction nodes with
  | nil => exact absurd hx (by simp [depthFirstAll])
  | cons n rest ih =>
    rw [List.forall_mem_cons] at each
    rw [depthFirstAll, List.mem_append] at hx
    rcases hx with hx | hx
    · exact ⟨n, List.mem_cons_self, each.1 hx⟩
    · obtain ⟨m, hm, below⟩ := ih each.2 hx
      exact ⟨m, List.mem_cons_of_mem n hm, below⟩

theorem reaches_of_mem_depthFirst {n x : Node K} (hx : x ∈ n.depthFirst) : n.Reaches x := by
  induction n using induct_operands with
  | node n ih =>
    rw [depthFirst_eq, List.mem_append, List.mem_singleton] at hx
    rcases hx with hx | rfl
    · obtain ⟨m, hm, below⟩ := reaches_of_mem_depthFirstAll ih hx
      exact .step hm below
    · exact .refl x

namespace Listing

/-- Lists a node unless it has been listed. -/
def add (l : Listing K) (n : Node K) : Listing K :=
  if l.seen.contains n.id then l else l.push n

theorem Tracks.any_same {l : Listing K} (h : l.Tracks) (n : Node K) :
    l.listed.any n.same = l.seen.contains n.id := by
  rw [Bool.eq_iff_iff, h n.id, List.any_eq_true]
  constructor
  · rintro ⟨m, hm, equal⟩
    exact ⟨m, List.mem_reverse.2 hm, (beq_iff_eq.1 equal).symm⟩
  · rintro ⟨m, hm, equal⟩
    exact ⟨m, List.mem_reverse.1 hm, beq_iff_eq.2 equal.symm⟩

/-- Adding the nodes of a list to a listing keeps the first of each identity. -/
theorem Tracks.toList_foldl_add {l : Listing K} (h : l.Tracks) (nodes : List (Node K)) :
    (nodes.foldl add l).toList = List.eraseDupsBy.loop same nodes l.listed := by
  induction nodes generalizing l with
  | nil => rfl
  | cons n rest ih =>
    rw [List.foldl_cons, List.eraseDupsBy.loop, h.any_same n, add]
    cases l.seen.contains n.id with
    | true => exact ih h
    | false => exact ih (h.push n)

end Listing

/-! ## First occurrences -/

/-- What has been listed is passed over. -/
theorem Walked.foldl_add {e : Node K} {nodes : List (Node K)} {l : Listing K} (h : Walked e l)
    (listed : ∀ n ∈ nodes, n ∈ l.listed) : nodes.foldl Listing.add l = l := by
  induction nodes with
  | nil => rfl
  | cons n rest ih =>
    rw [List.forall_mem_cons] at listed
    have seen : l.seen.contains n.id = true :=
      (h.tracks n.id).2 ⟨n, List.mem_reverse.2 listed.1, rfl⟩
    rw [List.foldl_cons, Listing.add, if_pos seen]
    exact ih listed.2

section

variable {e n : Node K} (coherent : Coherent [e])

include coherent

theorem foldl_depthFirstAll {nodes : List (Node K)} (below : ∀ n ∈ nodes, e.Reaches n)
    (each : ∀ n ∈ nodes, ∀ l, Walked e l → n.depthFirst.foldl Listing.add l = visit l n)
    {l : Listing K} (h : Walked e l) :
    (depthFirstAll nodes).foldl Listing.add l = visitAll l nodes := by
  induction nodes generalizing l with
  | nil => rw [depthFirstAll, visitAll, List.foldl_nil]
  | cons n rest ih =>
    rw [List.forall_mem_cons] at below each
    have walked := (lists_visit coherent below.1 l h).walked
    rw [depthFirstAll, visitAll, List.foldl_append, each.1 l h, ih below.2 each.2 walked]

/-- A walk adds the nodes along all paths, each unless it has been listed. -/
theorem foldl_depthFirst (below : e.Reaches n) (l : Listing K) (h : Walked e l) :
    n.depthFirst.foldl Listing.add l = visit l n := by
  induction n using induct_operands generalizing l with
  | node n ih =>
    rw [visit_eq]
    split
    · rename_i seen
      -- everything below a listed node is listed, so no path adds anything
      refine h.foldl_add fun x hx => ?_
      exact h.sorted.reaches_mem (h.mem_of_seen coherent below seen) (reaches_of_mem_depthFirst hx)
    · rename_i fresh
      have inside (m : Node K) (hm : m ∈ n.operands) : e.Reaches m :=
        below.trans (.of_mem_operands hm)
      have operands : Lists e n.operands l (visitAll l n.operands) :=
        lists_visitAll (fun m hm => lists_visit coherent (inside m hm)) h
      rw [depthFirst_eq, List.foldl_append,
        foldl_depthFirstAll coherent inside (fun m hm => ih m hm (inside m hm)) h,
        List.foldl_cons, List.foldl_nil, Listing.add,
        if_neg (operands.fresh below fresh coherent h)]

/-- The post-order keeps of every node the first occurrence along the paths. -/
theorem postOrder_eq_eraseDupsBy : e.postOrder = e.depthFirst.eraseDupsBy same := by
  rw [postOrder, ← foldl_depthFirst coherent (.refl e) .empty (.empty e),
    Listing.tracks_empty.toList_foldl_add]
  rfl

end

/-! ## Open nodes -/

namespace Listing

variable {l : Listing K} {n m : Node K} {i : Nat} {rest : List (Node K × Nat)}

/-- What will be listed once a cursor has closed some open nodes. -/
def closing (l : Listing K) (stack : List (Node K × Nat)) : List (Node K) :=
  l.toList ++ Cursor.toList ⟨stack, l.seen⟩

theorem closing_nil (l : Listing K) : l.closing [] = l.toList := by
  rw [closing, Cursor.toList_of_done rfl, List.append_nil]

/-- The cursor passes over an operand that was handed out. -/
theorem closing_of_seen (operand : n.operands[i]? = some m)
    (seen : l.seen.contains m.id = true) :
    l.closing ((n, i) :: rest) = l.closing ((n, i + 1) :: rest) := by
  rw [closing, closing, Cursor.toList_of_turn]
  simp only [Cursor.step?, operand, if_pos seen]

/-- The cursor opens an operand that was not handed out. -/
theorem closing_of_fresh (operand : n.operands[i]? = some m)
    (fresh : l.seen.contains m.id ≠ true) :
    l.closing ((n, i) :: rest) = l.closing ((m, 0) :: (n, i + 1) :: rest) := by
  rw [closing, closing, Cursor.toList_of_turn]
  simp only [Cursor.step?, operand, if_neg fresh]

/-- The cursor closes a node that has no operands left, and hands it out. -/
theorem closing_of_last (last : n.operands[i]? = none) (fresh : l.seen.contains n.id ≠ true) :
    l.closing ((n, i) :: rest) = (l.push n).closing rest := by
  have turn : Cursor.step? ⟨(n, i) :: rest, l.seen⟩ =
      some (some n, ⟨rest, (l.push n).seen⟩) := by
    simp only [Cursor.step?, last, if_neg fresh, push]
  rw [closing, closing, Cursor.toList_of_handed turn, toList_push, List.append_assoc,
    List.singleton_append]

end Listing

section

variable {e n : Node K} {rest : List (Node K × Nat)} (coherent : Coherent [e])

include coherent

/-- The operands that are left of an open node are walked to in turn. -/
theorem closing_visitAll {nodes : List (Node K)} {i : Nat} (below : ∀ m ∈ nodes, e.Reaches m)
    (each : ∀ m ∈ nodes, ∀ l stack, Walked e l → l.seen.contains m.id ≠ true →
      l.closing ((m, 0) :: stack) = (visit l m).closing stack)
    (left : n.operands.drop i = nodes) {l : Listing K} (h : Walked e l) :
    l.closing ((n, i) :: rest) =
      (visitAll l nodes).closing ((n, i + nodes.length) :: rest) := by
  induction nodes generalizing i l with
  | nil => rw [visitAll, List.length_nil, Nat.add_zero]
  | cons m others ih =>
    rw [List.forall_mem_cons] at below each
    have operand : n.operands[i]? = some m := by
      rw [← List.head?_drop, left, List.head?_cons]
    have later : n.operands.drop (i + 1) = others := by
      rw [← List.tail_drop, left, List.tail_cons]
    have walked := (lists_visit coherent below.1 l h).walked
    -- passed over or opened and closed, the operand adds what a walk from it adds
    have descent : l.closing ((n, i) :: rest) = (visit l m).closing ((n, i + 1) :: rest) := by
      by_cases seen : l.seen.contains m.id = true
      · rw [Listing.closing_of_seen operand seen, visit_eq, if_pos seen]
      · rw [Listing.closing_of_fresh operand seen, each.1 l _ h seen]
    rw [descent, ih below.2 each.2 later walked, visitAll, List.length_cons, Nat.add_right_comm,
      Nat.add_assoc]

/-- Opening a node comes to what a walk from it lists. -/
theorem closing_visit (below : e.Reaches n) (l : Listing K) (h : Walked e l)
    (fresh : l.seen.contains n.id ≠ true) :
    l.closing ((n, 0) :: rest) = (visit l n).closing rest := by
  induction n using induct_operands generalizing l rest with
  | node n ih =>
    have inside (m : Node K) (hm : m ∈ n.operands) : e.Reaches m :=
      below.trans (.of_mem_operands hm)
    have operands : Lists e n.operands l (visitAll l n.operands) :=
      lists_visitAll (fun m hm => lists_visit coherent (inside m hm)) h
    -- no identity repeats below itself, so the node is still fresh when its operands are done
    rw [closing_visitAll coherent inside
        (fun m hm l _ walked fresh => ih m hm (inside m hm) l walked fresh)
        (List.drop_zero (l := n.operands)) h,
      Listing.closing_of_last (by simp) (operands.fresh below fresh coherent h), visit_eq,
      if_neg fresh]

namespace Cursor

/-- A cursor hands out the post-order. -/
theorem toList_start : (start e).toList = e.postOrder := by
  have opened : (start e).toList = Listing.empty.closing [(e, 0)] := rfl
  rw [opened, closing_visit coherent (.refl e) .empty (.empty e) (by simp [Listing.empty]),
    Listing.closing_nil, postOrder]

/-- A cursor comes to an end, and hands out the nodes below the root depth first and from left to
right, each at its first occurrence: once by identity, after its operands, and the root last. -/
theorem toList_spec :
    Acc (fun later t : Cursor K => t.Turn later) (start e) ∧
      (start e).toList = e.postOrder ∧
      (start e).toList = e.depthFirst.eraseDupsBy same ∧
      (∀ x, x ∈ (start e).toList ↔ e.Reaches x) ∧
      ((start e).toList.map Node.id).Nodup ∧
      (∀ before n after, (start e).toList = before ++ n :: after →
        ∀ m ∈ n.operands, m ∈ before) ∧
      (start e).toList.getLast? = some e := by
  rw [toList_start coherent]
  refine ⟨wellFounded_turn.apply (start e), rfl, postOrder_eq_eraseDupsBy coherent,
    fun x => mem_postOrder_iff coherent, (usersFirst_postOrder coherent).nodup_ids_reverse, ?_,
    getLast?_postOrder e⟩
  intro before n after order
  have sorted := usersFirst_postOrder coherent
  rw [order] at sorted
  exact sorted.before.1

omit coherent in
/-- The sum of a sum with itself has three nodes, on seven paths. -/
theorem toList_spec_double :
    let x : Node Float := .leaf 0 "x" .scalar
    let double : Node Float := .application 1 ⟨.scalar, "+", [.scalar, .scalar]⟩ [x, x]
    let quadruple : Node Float := .application 2 ⟨.scalar, "+", [.scalar, .scalar]⟩ [double, double]
    Coherent [quadruple] ∧ quadruple.depthFirst = [x, x, double, x, x, double, quadruple] ∧
      (start quadruple).toList = [x, double, quadruple] := by
  intro x double quadruple
  have coherent : Coherent [quadruple] :=
    (Coherent.of_closed (by simp [x, double, quadruple])
      (by simp [x, double, quadruple]) : Coherent [quadruple, double, x]).of_subset (by simp)
  have ⟨_, _, firsts, _⟩ := toList_spec coherent
  exact ⟨coherent, rfl, firsts⟩

end Cursor

end

end Node

end SymbolicLinalg
