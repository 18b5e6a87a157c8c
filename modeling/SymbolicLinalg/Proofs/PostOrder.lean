import Mathlib.Data.List.Nodup
import SymbolicLinalg.Node.PostOrder
import SymbolicLinalg.Node.Reach

/-!
# PostOrder — operands before their users

Read from its end, the post-order of a graph is `UsersFirst`: every node stands before its operands,
and no identity occurs twice.  A walk adds nodes to a listing and keeps this up, by induction on the
expression; in the end the listing has exactly the nodes of the graph.
-/

namespace SymbolicLinalg

namespace Node

variable {K : Type}

/-! ## Operands are smaller -/

theorem sizeOf_lt_of_mem_operands {n m : Node K} (h : m ∈ n.operands) : sizeOf m < sizeOf n := by
  cases n with
  | constant | leaf => exact absurd h List.not_mem_nil
  | application id s operands =>
      have : sizeOf m < sizeOf operands := List.sizeOf_lt_of_mem h
      simp only [application.sizeOf_spec]
      omega

theorem Reaches.sizeOf_le {n x : Node K} (h : n.Reaches x) : sizeOf x ≤ sizeOf n := by
  induction h with
  | refl _ => exact Nat.le_refl _
  | step operand _ ih =>
      exact Nat.le_of_lt (Nat.lt_of_le_of_lt ih (sizeOf_lt_of_mem_operands operand))

/-- No node lies below one of its operands. -/
theorem not_reaches_of_mem_operands {n m : Node K} (h : m ∈ n.operands) : ¬ m.Reaches n :=
  fun below => Nat.not_le_of_lt (sizeOf_lt_of_mem_operands h) below.sizeOf_le

/-! ## Coherent graphs -/

theorem Coherent.of_subset {nodes fewer : List (Node K)} (h : Coherent nodes)
    (sub : fewer ⊆ nodes) : Coherent fewer :=
  fun m hm n hn => h m (sub hm) n (sub hn)

/-- Below the first of coherent nodes, identity determines the node. -/
theorem Coherent.eq_of_reaches {e x y : Node K} {others : List (Node K)}
    (h : Coherent (e :: others)) (hx : e.Reaches x) (hy : e.Reaches y) (same : x.id = y.id) :
    x = y :=
  h e List.mem_cons_self e List.mem_cons_self x y hx hy same

section

variable {nodes : List (Node K)} (closed : ∀ n ∈ nodes, ∀ m ∈ n.operands, m ∈ nodes)

include closed

theorem Reaches.mem_of_closed {n x : Node K} (h : n.Reaches x) (hn : n ∈ nodes) : x ∈ nodes := by
  induction h with
  | refl _ => exact hn
  | step operand _ ih => exact ih (closed _ hn _ operand)

/-- Nodes of distinct identities that have all their operands among them are coherent. -/
theorem Coherent.of_closed (distinct : (nodes.map Node.id).Nodup) : Coherent nodes := by
  intro m hm n hn x y hx hy same
  have first : x ∈ nodes := hx.mem_of_closed closed hm
  have second : y ∈ nodes := hy.mem_of_closed closed hn
  exact List.inj_on_of_nodup_map distinct first second same

end

/-! ## The order -/

/-- Every node stands before its operands, and no identity occurs twice. -/
inductive UsersFirst : List (Node K) → Prop where
  | nil : UsersFirst []
  | cons {n : Node K} {rest : List (Node K)} : (∀ m ∈ n.operands, m ∈ rest) →
      (∀ m ∈ rest, m.id ≠ n.id) → UsersFirst rest → UsersFirst (n :: rest)

namespace UsersFirst

variable {nodes rest : List (Node K)} {n x : Node K}

theorem operands_mem (h : UsersFirst nodes) (hn : n ∈ nodes) (operand : x ∈ n.operands) :
    x ∈ nodes := by
  induction h with
  | nil => exact absurd hn List.not_mem_nil
  | cons operands _ _ ih =>
      rcases List.mem_cons.1 hn with rfl | hn
      · exact List.mem_cons_of_mem _ (operands x operand)
      · exact List.mem_cons_of_mem _ (ih hn)

theorem of_append {before : List (Node K)} (h : UsersFirst (before ++ rest)) : UsersFirst rest := by
  induction before with
  | nil => exact h
  | cons m before ih =>
      cases h with
      | cons _ _ later => exact ih later

/-- What stands before a node in the other direction: its operands, and no other node of its
identity. -/
theorem before {done later : List (Node K)} (h : UsersFirst (done ++ n :: later).reverse) :
    (∀ m ∈ n.operands, m ∈ done) ∧ (∀ m ∈ done, m.id ≠ n.id) ∧ UsersFirst done.reverse := by
  rw [List.reverse_append, List.reverse_cons, List.append_assoc] at h
  cases h.of_append with
  | cons operands distinct rest =>
      exact ⟨fun m hm => List.mem_reverse.1 (operands m hm),
        fun m hm => distinct m (List.mem_reverse.2 hm), rest⟩

theorem nodup_ids (h : UsersFirst nodes) : (nodes.map Node.id).Nodup := by
  induction h with
  | nil => exact List.nodup_nil
  | @cons n rest _ distinct _ ih =>
      rw [List.map_cons, List.nodup_cons, List.mem_map]
      exact ⟨fun ⟨m, hm, same⟩ => distinct m hm same, ih⟩

theorem nodup_ids_reverse (h : UsersFirst nodes.reverse) : (nodes.map Node.id).Nodup := by
  have distinct := h.nodup_ids
  rwa [List.map_reverse, List.nodup_reverse] at distinct

/-- Nodes of one list, less those that are on another, may stand before the other. -/
theorem merge {done : List (Node K)} {fresh : Node K → Bool} (h : UsersFirst nodes)
    (sorted : UsersFirst done) (known : ∀ n ∈ nodes, fresh n = false → n ∈ done)
    (apart : ∀ n ∈ nodes, fresh n = true → ∀ m ∈ done, m.id ≠ n.id) :
    UsersFirst (nodes.filter fresh ++ done) := by
  induction h with
  | nil => exact sorted
  | @cons n rest operands distinct _ ih =>
      rw [List.forall_mem_cons] at known apart
      have later := ih known.2 apart.2
      rw [List.filter_cons]
      split
      · rename_i new
        refine .cons (fun m hm => ?_) (fun m hm => ?_) later
        · cases listed : fresh m with
          | true => exact List.mem_append_left done (List.mem_filter.2 ⟨operands m hm, listed⟩)
          | false => exact List.mem_append_right _ (known.2 m (operands m hm) listed)
        · rcases List.mem_append.1 hm with hm | hm
          · exact distinct m (List.mem_filter.1 hm).1
          · exact apart.1 new m hm
      · exact later

/-- Whatever lies below a node of the list is in the list. -/
theorem reaches_mem (h : UsersFirst nodes) (hn : n ∈ nodes) (below : n.Reaches x) : x ∈ nodes :=
  below.mem_of_closed (fun _ hm _ operand => h.operands_mem hm operand) hn

end UsersFirst

/-! ## The walk -/

/-- What holds of a listing during a walk below a node. -/
structure Walked (e : Node K) (l : Listing K) : Prop where
  tracks : l.Tracks
  below : ∀ n ∈ l.listed, e.Reaches n
  sorted : UsersFirst l.listed

namespace Walked

variable {e n : Node K} {l : Listing K}

theorem empty (e : Node K) : Walked e .empty :=
  ⟨Listing.tracks_empty, fun _ hn => absurd hn List.not_mem_nil, .nil⟩

theorem mem_of_seen (h : Walked e l) (coherent : Coherent [e]) (below : e.Reaches n)
    (seen : l.seen.contains n.id = true) : n ∈ l.listed := by
  rcases (h.tracks n.id).1 seen with ⟨m, hm, same⟩
  have hm : m ∈ l.listed := List.mem_reverse.1 hm
  rw [← coherent.eq_of_reaches (h.below m hm) below same]
  exact hm

theorem push (h : Walked e l) (below : e.Reaches n) (fresh : l.seen.contains n.id ≠ true)
    (operands : ∀ m ∈ n.operands, m ∈ l.listed) : Walked e (l.push n) where
  tracks := h.tracks.push n
  below := List.forall_mem_cons.2 ⟨below, h.below⟩
  sorted := by
    refine .cons operands (fun m hm same => fresh ?_) h.sorted
    exact (h.tracks n.id).2 ⟨m, List.mem_reverse.2 hm, same⟩

end Walked

/-- What a walk below some nodes does: it lists them, after what has been listed before, and with
them only what lies below them. -/
structure Lists (e : Node K) (nodes : List (Node K)) (l l' : Listing K) : Prop where
  walked : Walked e l'
  keeps : ∀ n ∈ l.listed, n ∈ l'.listed
  lists : ∀ n ∈ nodes, n ∈ l'.listed
  adds : ∀ x ∈ l'.listed, x ∈ l.listed ∨ ∃ n ∈ nodes, n.Reaches x

namespace Lists

variable {e n : Node K} {l l' : Listing K}

/-- There is nothing to walk to. -/
theorem nothing (h : Walked e l) : Lists e [] l l :=
  ⟨h, fun _ hn => hn, fun _ hn => absurd hn List.not_mem_nil, fun _ hn => .inl hn⟩

/-- A node that has been listed is passed over. -/
theorem passing (h : Walked e l) (hn : n ∈ l.listed) : Lists e [n] l l :=
  ⟨h, fun _ hm => hm, List.forall_mem_singleton.2 hn, fun _ hm => .inl hm⟩

/-- A node does not come up below its operands. -/
theorem fresh (h : Lists e n.operands l l') (below : e.Reaches n)
    (fresh : l.seen.contains n.id ≠ true) (coherent : Coherent [e]) (before : Walked e l) :
    l'.seen.contains n.id ≠ true := by
  intro seen
  rcases h.adds n (h.walked.mem_of_seen coherent below seen) with listed | ⟨m, hm, above⟩
  · exact fresh ((before.tracks n.id).2 ⟨n, List.mem_reverse.2 listed, rfl⟩)
  · exact not_reaches_of_mem_operands hm above

/-- A node is listed after its operands. -/
theorem push (h : Lists e n.operands l l') (below : e.Reaches n)
    (fresh : l.seen.contains n.id ≠ true) (coherent : Coherent [e]) (before : Walked e l) :
    Lists e [n] l (l'.push n) where
  walked := h.walked.push below (h.fresh below fresh coherent before) h.lists
  keeps m hm := List.mem_cons_of_mem n (h.keeps m hm)
  lists := List.forall_mem_singleton.2 List.mem_cons_self
  adds x hx := by
    rcases List.mem_cons.1 hx with rfl | hx
    · exact .inr ⟨x, List.mem_singleton_self x, .refl x⟩
    · rcases h.adds x hx with listed | ⟨m, hm, above⟩
      · exact .inl listed
      · exact .inr ⟨n, List.mem_singleton_self n, .step hm above⟩

end Lists

theorem lists_visitAll {e : Node K} {nodes : List (Node K)}
    (each : ∀ n ∈ nodes, ∀ l, Walked e l → Lists e [n] l (visit l n)) {l : Listing K}
    (h : Walked e l) : Lists e nodes l (visitAll l nodes) := by
  induction nodes generalizing l with
  | nil =>
      rw [visitAll]
      exact .nothing h
  | cons n rest ih =>
      rw [visitAll]
      have first := each n List.mem_cons_self l h
      have others := ih (fun m hm => each m (List.mem_cons_of_mem n hm)) first.walked
      refine ⟨others.walked, fun m hm => others.keeps m (first.keeps m hm), ?_, fun x hx => ?_⟩
      · refine List.forall_mem_cons.2 ⟨?_, others.lists⟩
        exact others.keeps n (first.lists n (List.mem_singleton_self n))
      · rcases others.adds x hx with hx | ⟨m, hm, above⟩
        · rcases first.adds x hx with hx | ⟨m, hm, above⟩
          · exact .inl hx
          · exact .inr ⟨n, List.mem_cons_self, List.mem_singleton.1 hm ▸ above⟩
        · exact .inr ⟨m, List.mem_cons_of_mem n hm, above⟩

theorem lists_visit {e n : Node K} (coherent : Coherent [e]) (below : e.Reaches n)
    (l : Listing K) (h : Walked e l) : Lists e [n] l (visit l n) := by
  induction n using induct generalizing l with
  | constant id v =>
      rw [visit]
      split
      · rename_i seen
        exact .passing h (h.mem_of_seen coherent below seen)
      · rename_i fresh
        exact (Lists.nothing h).push below fresh coherent h
  | leaf id name s =>
      rw [visit]
      split
      · rename_i seen
        exact .passing h (h.mem_of_seen coherent below seen)
      · rename_i fresh
        exact (Lists.nothing h).push below fresh coherent h
  | application id s operands ih =>
      rw [visit]
      split
      · rename_i seen
        exact .passing h (h.mem_of_seen coherent below seen)
      · rename_i fresh
        have operandsListed : Lists e operands l (visitAll l operands) :=
          lists_visitAll (fun m hm l' h' => ih m hm (below.trans (.of_mem_operands hm)) l' h') h
        exact operandsListed.push below fresh coherent h

/-! ## The post-order of a graph -/

/-- The root is the last node of its post-order. -/
theorem getLast?_postOrder (n : Node K) : n.postOrder.getLast? = some n := by
  rw [postOrder]
  cases n with
  | constant | leaf | application => simp [visit, Listing.empty]

/-- A walk from some nodes adds only what lies below them, if the walks from each of them do. -/
theorem mem_visitAll_cases {nodes : List (Node K)} {x : Node K}
    (each : ∀ n ∈ nodes, ∀ l, x ∈ (visit l n).listed → x ∈ l.listed ∨ n.Reaches x) {l : Listing K}
    (hx : x ∈ (visitAll l nodes).listed) : x ∈ l.listed ∨ ∃ n ∈ nodes, n.Reaches x := by
  induction nodes generalizing l with
  | nil =>
      rw [visitAll] at hx
      exact .inl hx
  | cons n rest ih =>
      rw [visitAll] at hx
      rcases ih (fun m hm => each m (List.mem_cons_of_mem n hm)) hx with hx | ⟨m, hm, below⟩
      · exact (each n List.mem_cons_self l hx).imp_right fun below => ⟨n, List.mem_cons_self, below⟩
      · exact .inr ⟨m, List.mem_cons_of_mem n hm, below⟩

theorem mem_visit_cases {n x : Node K} (l : Listing K) (hx : x ∈ (visit l n).listed) :
    x ∈ l.listed ∨ n.Reaches x := by
  induction n using induct generalizing l with
  | constant | leaf =>
      rw [visit] at hx
      split at hx
      · exact .inl hx
      · rcases List.mem_cons.1 hx with rfl | hx
        · exact .inr (.refl _)
        · exact .inl hx
  | application id s operands ih =>
      rw [visit] at hx
      split at hx
      · exact .inl hx
      · rcases List.mem_cons.1 hx with rfl | hx
        · exact .inr (.refl _)
        · refine (mem_visitAll_cases ih hx).imp_right fun below => ?_
          rcases below with ⟨m, hm, below⟩
          exact .step hm below

theorem reaches_of_mem_postOrder {e x : Node K} (hx : x ∈ e.postOrder) : e.Reaches x := by
  rw [postOrder, Listing.toList, List.mem_reverse] at hx
  exact (mem_visit_cases .empty hx).resolve_left List.not_mem_nil

section

variable {e : Node K} (coherent : Coherent [e])

include coherent

theorem lists_postOrder : Lists e [e] .empty (visit .empty e) :=
  lists_visit coherent (.refl e) .empty (.empty e)

/-- Read from its end, the post-order has every node before its operands. -/
theorem usersFirst_postOrder : UsersFirst e.postOrder.reverse := by
  rw [postOrder, Listing.toList, List.reverse_reverse]
  exact (lists_postOrder coherent).walked.sorted

/-- The post-order has exactly the nodes of the graph. -/
theorem mem_postOrder_iff {x : Node K} : x ∈ e.postOrder ↔ e.Reaches x := by
  have walk := lists_postOrder coherent
  constructor
  · exact reaches_of_mem_postOrder
  · rw [postOrder, Listing.toList, List.mem_reverse]
    exact walk.walked.sorted.reaches_mem (walk.lists e (List.mem_singleton_self e))

end

end Node

end SymbolicLinalg
