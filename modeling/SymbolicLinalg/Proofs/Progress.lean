import SymbolicLinalg.Lowering
import SymbolicLinalg.Proofs.Composition

/-!
# Progress — what a pass finds out, and how often it looks

A pass visits a node when it does not remember anything for it, and remembers what it has found out in
the end.  In between it visits other nodes.  From one state of a pass to a later one all that is
remembered stays as it is, and a node is visited at most once, unless the visit is given up.

* `Workspace.visits`: how often nodes have been visited;
* `Work.Idle`: work that visits nothing, such as construction;
* `Progress`: what has happened from one state of a pass to another;
* `Progress.visit`, `Progress.abandon`: a visit that comes to something, and one that is given up.
-/

namespace SymbolicLinalg

variable {K α β : Type}

/-! ## Visits -/

/-- The node that a pass visits when it tells of it.  Only then the hooks of the node may fire, each
of them once. -/
def Event.visited? : Event K → Option NodeId
  | .lowering id _ | .differentiating id _ => some id
  | _ => none

/-- How often a node has been visited. -/
def Workspace.visits (w : Workspace K) (id : NodeId) : Nat :=
  (w.events.toList.filterMap Event.visited?).count id

/-- The workspace in which one more event has been told. -/
abbrev Workspace.tell (w : Workspace K) (event : Event K) : Workspace K :=
  { w with events := w.events.push event }

namespace Workspace

variable {w : Workspace K} {event : Event K} {id : NodeId}

theorem visits_tell_of_none (silent : event.visited? = none) : (w.tell event).visits = w.visits := by
  funext i
  rw [visits, visits, Array.toList_push, List.filterMap_append, List.filterMap_cons_none silent,
    List.filterMap_nil, List.append_nil]

theorem visits_tell (visited : event.visited? = some id) (i : NodeId) :
    (w.tell event).visits i = w.visits i + if i = id then 1 else 0 := by
  rw [visits, visits, Array.toList_push, List.filterMap_append, List.filterMap_cons_some visited,
    List.filterMap_nil, List.count_append, List.count_singleton]
  simp only [beq_iff_eq, eq_comm (a := i)]

end Workspace

/-- Work that visits nothing. -/
def Work.Idle (work : Work K α) : Prop :=
  ∀ w, (work.runIn w).2.visits = w.visits

namespace Work.Idle

theorem value (a : α) : (pure a : Work K α).Idle :=
  fun _ => rfl

theorem refuse (e : Error) : (Work.refuse e : Work K α).Idle :=
  fun _ => rfl

theorem record {event : Event K} (silent : event.visited? = none) : (Work.record event).Idle :=
  fun _ => Workspace.visits_tell_of_none silent

theorem bind {work : Work K α} {next : α → Work K β} (h : work.Idle) (k : ∀ a, (next a).Idle) :
    (work >>= next).Idle := by
  intro w
  have first := h w
  rw [Work.runIn_bind]
  revert first
  rcases work.runIn w with ⟨_ | a, w'⟩
  · exact id
  · exact (k a w').trans

theorem make (r : Registry K) (c : Construction K) : (r.make c).Idle := by
  intro w
  have kept : Triple (fun w' => w'.visits = w.visits) (r.make c) (fun _ w' => w'.visits = w.visits)
      fun _ w' => w'.visits = w.visits :=
    make_keeps (fun _ same => same)
      (fun _ _ _ same => (Workspace.visits_tell_of_none rfl).trans same) r c
  have done := kept w rfl
  rw [Work.runIn]
  revert done
  rcases (r.make c).run.run w with ⟨_ | _, w'⟩
  · exact id
  · exact id

theorem follow (r : Registry K) (rule : Rule K α) : (Registry.follow r.make rule).Idle := by
  induction rule with
  | done a => exact value a
  | refuse e => exact refuse e
  | make c next ih => exact (make r c).bind ih
  | ask request next => exact request.elim

/-- The hooks that lower an operator construct and nothing else. -/
theorem checkedExpansion? (r : Registry K) (s : Signature) (operands : List (Node K)) :
    (r.checkedExpansion? s operands).Idle := by
  have expands : (r.expansion? s operands).Idle := by
    rw [Registry.expansion?]
    split
    · exact (follow r _).bind fun _ => value _
    · exact (follow r _).bind fun _ => value _
    · exact value _
  refine expands.bind fun found => ?_
  split
  · exact value _
  · split
    · exact refuse _
    · exact (record rfl).bind fun _ => value _

end Work.Idle

/-! ## Progress -/

/-- A node of the identity lies below. -/
def Node.Covers (n : Node K) (id : NodeId) : Prop :=
  ∃ x, n.Reaches x ∧ x.id = id

theorem Node.covers_self (n : Node K) : n.Covers n.id :=
  ⟨n, .refl n, rfl⟩

theorem Node.Covers.of_mem_operands {n m : Node K} {id : NodeId} (h : m.Covers id)
    (operand : m ∈ n.operands) : n.Covers id := by
  rcases h with ⟨x, below, same⟩
  exact ⟨x, .step operand below, same⟩

/-- From one state of a pass to another, only what is touched has been found out or visited; and what
has been visited was not known before, and is known now, unless it is excused. -/
structure Progress (touched excused : NodeId → Prop) (s s' : Workspace K × Memo K) : Prop where
  kept {id : NodeId} {m : Node K} : s.2[id]? = some m → s'.2[id]? = some m
  learnt {id : NodeId} {m : Node K} : s'.2[id]? = some m → s.2[id]? = some m ∨ touched id
  visits (id : NodeId) : s'.1.visits id = s.1.visits id ∨
    touched id ∧ s.2[id]? = none ∧
      (excused id ∨ s'.1.visits id = s.1.visits id + 1 ∧ ∃ m, s'.2[id]? = some m)

namespace Progress

variable {touched excused more pardoned : NodeId → Prop} {s s' s'' : Workspace K × Memo K}
  {id : NodeId} {m : Node K} {event : Event K}

/-- Work on the workspace that visits nothing makes no difference. -/
theorem of_idle (memo : s'.2 = s.2) (visits : s'.1.visits = s.1.visits) :
    Progress touched excused s s' where
  kept known := memo ▸ known
  learnt known := .inl (memo ▸ known)
  visits id := .inl (congrFun visits id)

theorem refl (s : Workspace K × Memo K) : Progress touched excused s s :=
  of_idle rfl rfl

theorem imp (h : Progress touched excused s s') (touches : ∀ id, touched id → more id)
    (excuses : ∀ id, excused id → pardoned id) : Progress more pardoned s s' where
  kept := h.kept
  learnt known := (h.learnt known).imp_right (touches _)
  visits id := (h.visits id).imp_right fun ⟨touched, unknown, settled⟩ =>
    ⟨touches id touched, unknown, settled.imp_left (excuses id)⟩

theorem wider (h : Progress touched excused s s') (touches : ∀ id, touched id → more id) :
    Progress more excused s s' :=
  h.imp touches fun _ h => h

theorem trans (h : Progress touched excused s s') (h' : Progress touched excused s' s'') :
    Progress touched excused s s'' where
  kept known := h'.kept (h.kept known)
  learnt known := (h'.learnt known).elim h.learnt .inr
  visits id := by
    rcases h'.visits id with same' | ⟨touched', unknown', settled'⟩
    · rw [same']
      refine (h.visits id).imp_right fun ⟨touched, unknown, settled⟩ => ⟨touched, unknown, ?_⟩
      exact settled.imp_right fun ⟨once, m, known⟩ => ⟨once, m, h'.kept known⟩
    · rcases h.visits id with same | ⟨touched, unknown, excused | ⟨_, m, known⟩⟩
      · rw [same] at settled'
        refine .inr ⟨touched', ?_, settled'⟩
        -- what is known stays known
        exact Option.eq_none_iff_forall_ne_some.2 fun m known =>
          absurd ((h.kept known).symm.trans unknown') (Option.some_ne_none m)
      · exact .inr ⟨touched, unknown, .inl excused⟩
      · exact absurd (known.symm.trans unknown') (Option.some_ne_none m)

/-- What is not touched is not known, if it was not known before. -/
theorem unknown (h : Progress touched excused s s') (unknown : s.2[id]? = none)
    (untouched : ¬ touched id) : s'.2[id]? = none := by
  refine Option.eq_none_iff_forall_ne_some.2 fun m known => ?_
  rcases h.learnt known with known | touches
  · exact absurd (known.symm.trans unknown) (Option.some_ne_none m)
  · exact untouched touches

/-- Nothing is forgotten when something is remembered for a node for which nothing else is known. -/
theorem remember (h : Progress touched excused s s') (same : ∀ k, s'.2[id]? = some k → k = m)
    (touches : touched id) : Progress touched excused s (s'.1, s'.2.insert id m) := by
  have stays (i : NodeId) (k : Node K) (known : s'.2[i]? = some k) :
      (s'.2.insert id m)[i]? = some k := by
    rw [Std.HashMap.getElem?_insert]
    split
    · rename_i here
      rw [same k (by rwa [beq_iff_eq.1 here])]
    · exact known
  refine ⟨fun {i k} known => stays i k (h.kept known), fun {i k} known => ?_, fun i => ?_⟩
  · dsimp only at known
    rw [Std.HashMap.getElem?_insert] at known
    split at known
    · rename_i here
      exact .inr (beq_iff_eq.1 here ▸ touches)
    · exact h.learnt known
  · refine (h.visits i).imp_right fun ⟨touched, unknown, settled⟩ => ⟨touched, unknown, ?_⟩
    exact settled.imp_right fun ⟨once, k, known⟩ => ⟨once, k, stays i k known⟩

/-- A visit to a node that is given up, after others that do not concern the node. -/
theorem abandon (h : Progress touched excused (s.1.tell event, s.2) s')
    (visited : event.visited? = some id) (unknown : s.2[id]? = none) (touches : touched id)
    (excuse : excused id) : Progress touched excused s s' where
  kept := h.kept
  learnt := h.learnt
  visits i := by
    by_cases here : i = id
    · exact here ▸ .inr ⟨touches, unknown, .inl excuse⟩
    · have visits := h.visits i
      rwa [Workspace.visits_tell visited, if_neg here] at visits

/-- A visit to a node that comes to something, after others that do not concern the node. -/
theorem visit (h : Progress touched excused (s.1.tell event, s.2) s')
    (visited : event.visited? = some id) (unknown : s.2[id]? = none) (untouched : ¬ touched id)
    (m : Node K) :
    Progress (fun i => touched i ∨ i = id) excused s (s'.1, s'.2.insert id m) := by
  have within : Progress (fun i => touched i ∨ i = id) excused (s.1.tell event, s.2) s' :=
    h.wider fun _ => .inl
  have remembered := within.remember (m := m)
    (fun k known => absurd (known.symm.trans (h.unknown unknown untouched)) (Option.some_ne_none k))
    (.inr rfl)
  refine ⟨remembered.kept, remembered.learnt, fun i => ?_⟩
  by_cases here : i = id
  · subst here
    have once : s'.1.visits i = (s.1.tell event).visits i :=
      (h.visits i).resolve_right fun visited => untouched visited.1
    rw [Workspace.visits_tell visited, if_pos rfl] at once
    exact .inr ⟨.inr rfl, unknown, .inr ⟨once, m, Std.HashMap.getElem?_insert_self⟩⟩
  · have visits := remembered.visits i
    rwa [Workspace.visits_tell visited, if_neg here] at visits

end Progress

end SymbolicLinalg
