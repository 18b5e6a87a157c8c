import SymbolicLinalg.Proofs.Firing
import SymbolicLinalg.Proofs.Routing
import SymbolicLinalg.Proofs.Sweep

/-!
# Delivery — every hook receives its total gradient once

The trail of a sweep tells which contributions have been routed to which nodes, and which hooks have
fired with which gradients; what a hook does when it fires is the next part of the trail.  When a node
is visited, all its users have been: whatever will be routed to it has been, its hook fires at most
once, and it fires with the sum of everything that was routed to it in the whole sweep.

The operators may be any whose `gradient` hooks contribute to their own operands only.  Sums are what
the registry makes of them, from left to right and in the order of the trail.

* `Expected`, `History`: the invariant, for what is held and for what has been done;
* `contribute_telling`, `propagate_delivering`: one contribution and one node keep it;
* `backprop_delivers`: the trail of a sweep that comes to its end.
-/

namespace SymbolicLinalg

variable {K : Type}

/-! ## The trail -/

/-- What has been routed to a node, in order. -/
def routed (id : NodeId) (trail : List (Event K)) : List (Node K) :=
  trail.filterMap (Event.routedTo? id)

/-- The gradients with which the hook of a node has fired, in order. -/
def fired (id : NodeId) (trail : List (Event K)) : List (Node K) :=
  trail.filterMap (Event.firing? id)

section

variable {trail more : List (Event K)} {id : NodeId}

theorem routed_append_neutral (neutral : ∀ event ∈ more, event.IsNeutral) :
    routed id (trail ++ more) = routed id trail := by
  have none : more.filterMap (Event.routedTo? id) = [] :=
    List.filterMap_eq_nil_iff.2 fun event hm => (neutral event hm id).1
  rw [routed, List.filterMap_append, none, List.append_nil, routed]

theorem fired_append_neutral (neutral : ∀ event ∈ more, event.IsNeutral) :
    fired id (trail ++ more) = fired id trail := by
  have none : more.filterMap (Event.firing? id) = [] :=
    List.filterMap_eq_nil_iff.2 fun event hm => (neutral event hm id).2
  rw [fired, List.filterMap_append, none, List.append_nil, fired]

theorem routed_append_contributed (m g : Node K) :
    routed id (trail ++ [.contributed m g]) =
      if m.id = id then routed id trail ++ [g] else routed id trail := by
  rw [routed, List.filterMap_append]
  split
  · rename_i same
    simp [routed, Event.routedTo?, same]
  · rename_i differs
    simp [routed, Event.routedTo?, differs]

theorem fired_append_contributed (m g : Node K) :
    fired id (trail ++ [.contributed m g]) = fired id trail := by
  simp [fired, Event.firing?]

theorem routed_append_propagating (n : NodeId) (s : Signature) (g : Node K) :
    routed id (trail ++ [.propagating n s g]) = routed id trail := by
  simp [routed, Event.routedTo?]

theorem fired_append_propagating (n : NodeId) (s : Signature) (g : Node K) :
    fired id (trail ++ [.propagating n s g]) =
      if n = id then fired id trail ++ [g] else fired id trail := by
  rw [fired, List.filterMap_append]
  split
  · rename_i same
    simp [fired, Event.firing?, same]
  · rename_i differs
    simp [fired, Event.firing?, differs]

end

/-! ## Sums -/

/-- The left-nested sum of some contributions, as the registry makes it. -/
inductive Registry.Sums (r : Registry K) : List (Node K) → Node K → Prop where
  | one (g : Node K) : r.Sums [g] g
  | add {gs : List (Node K)} {total g sum : Node K} {w w' : Workspace K} : r.Sums gs total →
      (r.apply "+" [total, g]).runIn w = (.ok sum, w') → r.Sums (gs ++ [g]) sum

/-- What some contributions amount to; without contributions there is no total. -/
def Registry.Totals (r : Registry K) (gs : List (Node K)) : Option (Node K) → Prop
  | none => gs = []
  | some total => r.Sums gs total

theorem accumulate_sums [Arithmetic K] [Numeral K] {r : Registry K} {past : List (Event K)}
    {gs : List (Node K)} {total? : Option (Node K)} (h : r.Totals gs total?) (g : Node K) :
    Triple (Quiet past) (r.accumulate total? g)
      (fun sum w => r.Sums (gs ++ [g]) sum ∧ Quiet past w) fun _ _ => True := by
  cases total? with
  | none =>
      obtain rfl : gs = [] := h
      exact .value fun _ quiet => ⟨.one g, quiet⟩
  | some total =>
      intro w quiet
      have kept := make_quiet r (.apply "+" [total, g]) w quiet
      change Settles _ _ ((r.apply "+" [total, g]).runIn w)
      change Settles _ _ ((r.apply "+" [total, g]).runIn w) at kept
      revert kept
      rcases run : (r.apply "+" [total, g]).runIn w with ⟨_ | sum, w'⟩
      · exact fun _ => trivial
      · exact fun kept => ⟨.add h run, kept⟩

/-- A sum within a sweep. -/
theorem accumulate_within [Arithmetic K] [Numeral K] {r : Registry K} {past : List (Event K)}
    {gs : List (Node K)} {total? : Option (Node K)} {flow : Flow K} (h : r.Totals gs total?)
    (g : Node K) :
    Triple (fun s => Quiet past s.1 ∧ s.2 = flow) (Work.within (r.accumulate total? g))
      (fun sum s => r.Sums (gs ++ [g]) sum ∧ Quiet past s.1 ∧ s.2 = flow) fun _ _ => True := by
  refine .within fun _ w ⟨quiet, same⟩ => (accumulate_sums h g w quiet).imp ?_ fun _ _ => id
  exact fun _ _ ⟨sums, quiet⟩ => ⟨sums, quiet, same⟩

/-! ## Progress -/

/-- A leaf that is asked for lies below the node. -/
abbrev Above (deps : List (Node K)) (n : Node K) : Prop :=
  ∃ x ∈ deps, n.Reaches x

section

variable {r : Registry K} {e m n : Node K} {deps visited rest : List (Node K)}
  {trail trail' : List (Event K)} {flow : Flow K} {g total : Node K}

/-- Somewhere in a sweep over the nodes of an expression, from the users to their operands. -/
structure Midway (e : Node K) (deps visited rest : List (Node K)) : Prop where
  coherent : Node.Coherent (e :: deps)
  leaves : ∀ x ∈ deps, x.isLeaf = true
  split : visited ++ rest = e.postOrder.reverse

namespace Midway

variable (h : Midway e deps visited rest)

include h

theorem sorted : Node.UsersFirst (visited ++ rest) := by
  rw [h.split]
  exact Node.usersFirst_postOrder (h.coherent.of_subset (by simp))

theorem mem_iff : n ∈ visited ++ rest ↔ e.Reaches n := by
  rw [h.split, List.mem_reverse, Node.mem_postOrder_iff (h.coherent.of_subset (by simp))]

theorem below (hn : n ∈ rest) : e.Reaches n :=
  h.mem_iff.1 (List.mem_append_right visited hn)

theorem apart (hn : n ∈ rest) : ∀ v ∈ visited, v.id ≠ n.id := by
  intro v hv same
  have distinct := h.sorted.nodup_ids
  rw [List.map_append, List.nodup_append] at distinct
  exact distinct.2.2 _ (List.mem_map_of_mem hv) _ (List.mem_map_of_mem hn) same

theorem eq_of_id_eq (hm : m ∈ rest) (hn : n ∈ rest) (same : m.id = n.id) : m = n :=
  h.coherent.eq_of_reaches (h.below hm) (h.below hn) same

theorem eq_of_id_eq_dep (hm : m ∈ rest) {x : Node K} (hx : x ∈ deps) (same : m.id = x.id) : m = x :=
  h.coherent e List.mem_cons_self x (List.mem_cons_of_mem e hx) m x (h.below hm) (.refl x) same

omit h in
theorem next (h : Midway e deps visited (n :: rest)) : Midway e deps (visited ++ [n]) rest where
  coherent := h.coherent
  leaves := h.leaves
  split := by rw [List.append_assoc, List.singleton_append, h.split]

end Midway

/-! ## What is held -/

/-- What is held for the nodes that are still to be visited, and for the leaves. -/
structure Expected (r : Registry K) (e : Node K) (deps rest : List (Node K))
    (trail : List (Event K)) (flow : Flow K) : Prop where
  waiting : ∀ n ∈ rest, n.isApplication = true → Above deps n →
    r.Totals (routed n.id trail) flow.pending[n.id]?
  irrelevant : ∀ n ∈ rest, ¬ Above deps n → flow.pending[n.id]? = none
  reached : ∀ x ∈ deps, r.Totals (routed x.id trail) (flow.gradients.get? x)
  entries : ∀ id leaf g, flow.gradients.reached[id]? = some (leaf, g) →
    leaf ∈ deps ∧ e.Reaches leaf ∧ leaf.id = id

namespace Expected

theorem empty : Expected r e deps rest [] ⟨∅, .empty⟩ where
  waiting n _ _ _ := by
    dsimp only
    rw [Std.HashMap.getElem?_empty]
    rfl
  irrelevant n _ _ := Std.HashMap.getElem?_empty
  reached x _ := by
    dsimp only
    rw [Gradients.get?_empty]
    rfl
  entries id leaf g found := by
    rw [Gradients.empty, Std.HashMap.getElem?_empty] at found
    exact absurd found.symm (Option.some_ne_none (leaf, g))

theorem of_routed_eq (h : Expected r e deps rest trail flow)
    (same : ∀ id, routed id trail' = routed id trail) : Expected r e deps rest trail' flow where
  waiting n hn application above := by
    rw [same]
    exact h.waiting n hn application above
  irrelevant := h.irrelevant
  reached x hx := by
    rw [same]
    exact h.reached x hx
  entries := h.entries

/-- A node has been visited, and its pending gradient has been taken. -/
theorem visit (h : Expected r e deps (n :: rest) trail flow) (apart : ∀ m ∈ rest, m.id ≠ n.id) :
    Expected r e deps rest trail { flow with pending := flow.pending.erase n.id } where
  waiting m hm application above := by
    dsimp only
    rw [Std.HashMap.getElem?_erase, if_neg (by simpa using (apart m hm).symm)]
    exact h.waiting m (List.mem_cons_of_mem n hm) application above
  irrelevant m hm idle := by
    dsimp only
    rw [Std.HashMap.getElem?_erase, if_neg (by simpa using (apart m hm).symm)]
    exact h.irrelevant m (List.mem_cons_of_mem n hm) idle
  reached := h.reached
  entries := h.entries

theorem pass (h : Expected r e deps (n :: rest) trail flow) : Expected r e deps rest trail flow where
  waiting m hm := h.waiting m (List.mem_cons_of_mem n hm)
  irrelevant m hm := h.irrelevant m (List.mem_cons_of_mem n hm)
  reached := h.reached
  entries := h.entries

section

variable (h : Expected r e deps rest trail flow) (midway : Midway e deps visited rest)
  (hm : m ∈ rest)

include h midway hm

/-- A contribution to a node above no leaf that is asked for is dropped. -/
theorem drop (idle : ¬ Above deps m) :
    Expected r e deps rest (trail ++ [.contributed m g]) flow where
  waiting n hn application above := by
    have differs : m.id ≠ n.id := fun same => idle (midway.eq_of_id_eq hm hn same ▸ above)
    rw [routed_append_contributed, if_neg differs]
    exact h.waiting n hn application above
  irrelevant := h.irrelevant
  reached x hx := by
    have differs : m.id ≠ x.id := fun same =>
      idle ⟨x, hx, midway.eq_of_id_eq_dep hm hx same ▸ .refl m⟩
    rw [routed_append_contributed, if_neg differs]
    exact h.reached x hx
  entries := h.entries

/-- A contribution to a leaf is added to the gradient of the leaf. -/
theorem insert_gradient (leaf : m.isLeaf = true) (wanted : m ∈ deps)
    (sums : r.Sums (routed m.id trail ++ [g]) total) :
    Expected r e deps rest (trail ++ [.contributed m g])
      { flow with gradients := flow.gradients.insert m total } where
  waiting n hn application above := by
    have differs : m.id ≠ n.id := by
      intro same
      obtain rfl := midway.eq_of_id_eq hm hn same
      cases m with
      | application => exact absurd leaf Bool.false_ne_true
      | constant | leaf => exact absurd application Bool.false_ne_true
    rw [routed_append_contributed, if_neg differs]
    exact h.waiting n hn application above
  irrelevant := h.irrelevant
  reached x hx := by
    rw [routed_append_contributed, Gradients.get?_insert]
    split
    · rename_i same
      rw [← same]
      exact sums
    · exact h.reached x hx
  entries id leaf k found := by
    rw [Gradients.insert, Std.HashMap.getElem?_insert] at found
    split at found
    · -- the entry is the new one
      rename_i same
      obtain ⟨rfl, rfl⟩ := Prod.mk.inj (Option.some.inj found)
      exact ⟨wanted, midway.below hm, beq_iff_eq.1 same⟩
    · exact h.entries id leaf k found

/-- A contribution to an application is added to what is pending for it. -/
theorem insert_pending (application : m.isApplication = true) (above : Above deps m)
    (sums : r.Sums (routed m.id trail ++ [g]) total) :
    Expected r e deps rest (trail ++ [.contributed m g])
      { flow with pending := flow.pending.insert m.id total } where
  waiting n hn _ _ := by
    dsimp only
    rw [routed_append_contributed, Std.HashMap.getElem?_insert]
    by_cases same : m.id = n.id
    · rw [if_pos same, if_pos (beq_iff_eq.2 same), ← same]
      exact sums
    · rw [if_neg same, if_neg (by simpa using same)]
      exact h.waiting n hn ‹_› ‹_›
  irrelevant n hn idle := by
    have differs : m.id ≠ n.id := fun same => idle (midway.eq_of_id_eq hm hn same ▸ above)
    dsimp only
    rw [Std.HashMap.getElem?_insert, if_neg (by simpa using differs)]
    exact h.irrelevant n hn idle
  reached x hx := by
    have differs : m.id ≠ x.id := by
      intro same
      obtain rfl := midway.eq_of_id_eq_dep hm hx same
      have leaf := midway.leaves m hx
      cases m with
      | application => exact absurd leaf Bool.false_ne_true
      | constant | leaf => exact absurd application Bool.false_ne_true
    rw [routed_append_contributed, if_neg differs]
    exact h.reached x hx
  entries := h.entries

end

end Expected

/-! ## What has been done -/

section

variable [Arithmetic K]

/-- The hook of a node has fired once, with the total of what was routed to the node, if there is a
total other than zero; and never, if no leaf that is asked for lies below the node. -/
structure Served (r : Registry K) (deps : List (Node K)) (trail : List (Event K)) (n : Node K) :
    Prop where
  total : Above deps n → ∃ total?, r.Totals (routed n.id trail) total? ∧
    fired n.id trail = (total?.filter fun g => !g.isZero).toList
  idle : ¬ Above deps n → fired n.id trail = []

/-- What the trail tells of the nodes that have been visited. -/
structure History (r : Registry K) (deps visited : List (Node K)) (trail : List (Event K)) :
    Prop where
  served : ∀ n ∈ visited, n.isApplication = true → Served r deps trail n
  fires : ∀ id s g, .propagating id s g ∈ trail → ∃ operands, .application id s operands ∈ visited
  /-- Nothing is routed to a node after its hook has fired. -/
  last : trail.Pairwise fun earlier later =>
    ∀ id s g, earlier = .propagating id s g → later.routedTo? id = none

namespace Served

theorem of_eq (h : Served r deps trail n) (same : routed n.id trail' = routed n.id trail)
    (same' : fired n.id trail' = fired n.id trail) : Served r deps trail' n := by
  refine ⟨fun above => ?_, fun idle => by rw [same', h.idle idle]⟩
  rw [same, same']
  exact h.total above

end Served

namespace History

theorem empty : History r deps [] [] where
  served _ hn := absurd hn List.not_mem_nil
  fires _ _ _ h := absurd h List.not_mem_nil
  last := .nil

theorem neutral (h : History r deps visited trail) {more : List (Event K)}
    (neutral : ∀ event ∈ more, event.IsNeutral) : History r deps visited (trail ++ more) where
  served n hn application :=
    (h.served n hn application).of_eq (routed_append_neutral neutral) (fired_append_neutral neutral)
  fires id s g hm := by
    rcases List.mem_append.1 hm with hm | hm
    · exact h.fires id s g hm
    · exact absurd (neutral _ hm) (Event.not_isNeutral_propagating id s g)
  last := by
    refine List.pairwise_append.2 ⟨h.last, ?_, fun _ _ later hm id _ _ _ => (neutral later hm id).1⟩
    exact List.pairwise_iff_getElem.2 fun _ _ _ hj _ id _ _ _ =>
      (neutral _ (List.getElem_mem hj) id).1

/-- A contribution to a node that has not been visited. -/
theorem contribute (h : History r deps visited trail) (apart : ∀ n ∈ visited, n.id ≠ m.id) :
    History r deps visited (trail ++ [.contributed m g]) where
  served n hn application := by
    refine (h.served n hn application).of_eq ?_ (fired_append_contributed m g)
    rw [routed_append_contributed, if_neg fun same => apart n hn same.symm]
  fires id s g hm := by
    rcases List.mem_append.1 hm with hm | hm
    · exact h.fires id s g hm
    · exact absurd (List.mem_singleton.1 hm) nofun
  last := by
    refine List.pairwise_append.2 ⟨h.last, List.pairwise_singleton _ _, ?_⟩
    rintro _ hm later hl id s g rfl
    rw [List.mem_singleton] at hl
    subst hl
    rcases h.fires id s g hm with ⟨operands, hn⟩
    exact if_neg fun same => apart _ hn same.symm

theorem visit (h : History r deps visited trail)
    (served : n.isApplication = true → Served r deps trail n) :
    History r deps (visited ++ [n]) trail where
  served m hm application := by
    rcases List.mem_append.1 hm with hm | hm
    · exact h.served m hm application
    · obtain rfl := List.mem_singleton.1 hm
      exact served application
  fires id s g hm := by
    rcases h.fires id s g hm with ⟨operands, hn⟩
    exact ⟨operands, List.mem_append_left _ hn⟩
  last := h.last

/-- The hook of a node that has not been visited has not fired. -/
theorem fired_eq_nil (h : History r deps visited trail) (apart : ∀ v ∈ visited, v.id ≠ n.id) :
    fired n.id trail = [] := by
  refine List.filterMap_eq_nil_iff.2 fun event hm => ?_
  cases event with
  | propagating id s g =>
      rcases h.fires id s g hm with ⟨operands, hv⟩
      exact if_neg (apart _ hv)
  | _ => rfl

/-- The hook of a node fires with the total of what has been routed to the node. -/
theorem fire (h : History r deps visited trail) {id : NodeId} {s : Signature}
    {operands : List (Node K)} (apart : ∀ v ∈ visited, v.id ≠ id)
    (total : r.Sums (routed id trail) g) (above : Above deps (.application id s operands))
    (nonzero : g.isZero = false) :
    History r deps (visited ++ [.application id s operands]) (trail ++ [.propagating id s g]) where
  served m hm application := by
    rcases List.mem_append.1 hm with hm | hm
    · refine (h.served m hm application).of_eq (routed_append_propagating id s g) ?_
      rw [fired_append_propagating, if_neg fun same => apart m hm same.symm]
    · obtain rfl := List.mem_singleton.1 hm
      refine ⟨fun _ => ⟨some g, ?_, ?_⟩, fun idle => absurd above idle⟩
      · rw [routed_append_propagating]
        exact total
      · have none := h.fired_eq_nil (n := .application id s operands) apart
        rw [Node.id_application] at none ⊢
        rw [fired_append_propagating, if_pos rfl, none]
        simp [Option.filter, nonzero]
  fires i t k hm := by
    rcases List.mem_append.1 hm with hm | hm
    · rcases h.fires i t k hm with ⟨ns, hn⟩
      exact ⟨ns, List.mem_append_left _ hn⟩
    · obtain ⟨rfl, rfl, rfl⟩ := Event.propagating.inj (List.mem_singleton.1 hm)
      exact ⟨operands, List.mem_append_right _ (List.mem_singleton_self _)⟩
  last := by
    refine List.pairwise_append.2 ⟨h.last, List.pairwise_singleton _ _, ?_⟩
    rintro _ _ later hl i t k rfl
    rw [List.mem_singleton] at hl
    subst hl
    rfl

end History

end

/-! ## One contribution -/

section

variable [Arithmetic K] [Numeral K] {start first : List (Event K)}

/-- In the middle of a sweep: after some start its trail is this one, and it is a trail of deliveries
only. -/
structure Telling (r : Registry K) (e : Node K) (deps visited rest : List (Node K))
    (start trail : List (Event K)) (s : Workspace K × Flow K) : Prop where
  events : s.1.events.toList = start ++ trail
  history : History r deps visited trail
  expected : Expected r e deps rest trail s.2

/-- In the middle of a sweep, whose trail began in some way after some start. -/
def Delivering (r : Registry K) (e : Node K) (deps visited rest : List (Node K))
    (start first : List (Event K)) (s : Workspace K × Flow K) : Prop :=
  ∃ trail, first <+: trail ∧ Telling r e deps visited rest start trail s

omit [Numeral K] in
theorem Delivering.of_quiet {w : Workspace K} (kept : first <+: trail)
    (history : History r deps visited trail) (expected : Expected r e deps rest trail flow)
    (quiet : Quiet (start ++ trail) w) : Delivering r e deps visited rest start first (w, flow) := by
  rcases quiet with ⟨more, neutral, same⟩
  refine ⟨trail ++ more, kept.trans (List.prefix_append trail more), ?_, history.neutral neutral, ?_⟩
  · exact same.trans (List.append_assoc start trail more)
  · exact expected.of_routed_eq fun id => routed_append_neutral neutral

theorem contribute_telling (midway : Midway e deps visited rest) (hm : m ∈ rest) (g : Node K) :
    Triple (Telling r e deps visited rest start trail)
      (r.contribute (Registry.relevantTo e deps) ⟨m, g⟩)
      (fun _ => Delivering r e deps visited rest start (trail ++ [.contributed m g]))
      fun _ _ => True := by
  have relevant := Registry.relevantTo_contains_iff midway.coherent (midway.below hm)
  rw [Registry.contribute]
  dsimp only
  split
  · exact Triple.bind (m := fun _ _ => False) (.within fun _ => .refuse fun _ _ => trivial)
      fun _ _ => False.elim
  let told := trail ++ [.contributed m g]
  refine Triple.bind (m := fun _ s =>
    (History r deps visited told ∧ Expected r e deps rest trail s.2) ∧ Quiet (start ++ told) s.1)
    ?_ fun _ => ?_
  · -- the contribution is told
    refine .within fun flow => .record fun w hs => ?_
    rcases hs with ⟨same, history, expected⟩
    refine ⟨⟨history.contribute (midway.apart hm), expected⟩, ?_⟩
    have now := Quiet.now { w with events := w.events.push (.contributed m g) }
    rwa [Array.toList_push, same, List.append_assoc] at now
  split
  · -- a leaf that is asked for lies below the node
    rename_i above
    replace above := relevant.1 above
    refine Triple.bind (m := fun (now : Workspace K × Flow K) s =>
      (History r deps visited told ∧ Expected r e deps rest trail now.2) ∧
        Quiet (start ++ told) s.1 ∧ s.2 = now.2) (.read fun s hs => ⟨hs.1, hs.2, rfl⟩) ?_
    intro now
    rcases now with ⟨_, flow⟩
    refine .assuming fun known => ?_
    rcases known with ⟨history, expected⟩
    dsimp only
    rcases Node.leaf_or_application midway.leaves above with ⟨leaf, wanted⟩ | ⟨inner, application⟩
    · rw [if_pos leaf]
      refine (accumulate_within (expected.reached m wanted) g).bind fun total => .update ?_
      intro s hs
      rcases s with ⟨_, _⟩
      rcases hs with ⟨sums, quiet, rfl⟩
      have reached := expected.insert_gradient midway hm leaf wanted sums
      exact .of_quiet List.prefix_rfl history reached quiet
    · rw [if_neg (by simp [inner])]
      refine (accumulate_within (expected.waiting m hm application above) g).bind
        fun total => .update ?_
      intro s hs
      rcases s with ⟨_, _⟩
      rcases hs with ⟨sums, quiet, rfl⟩
      have waiting := expected.insert_pending midway hm application above sums
      exact .of_quiet List.prefix_rfl history waiting quiet
  · rename_i idle
    refine .value fun s hs => ?_
    rcases s with ⟨w, flow⟩
    rcases hs with ⟨⟨history, expected⟩, quiet⟩
    have apart : ¬ Above deps m := fun above => idle (relevant.2 above)
    exact .of_quiet List.prefix_rfl history (expected.drop midway hm apart) quiet

theorem contribute_delivering (midway : Midway e deps visited rest) (hm : m ∈ rest) (g : Node K) :
    Triple (Delivering r e deps visited rest start first)
      (r.contribute (Registry.relevantTo e deps) ⟨m, g⟩)
      (fun _ => Delivering r e deps visited rest start first) fun _ _ => True := by
  refine .of_exists fun trail => .assuming fun kept => (contribute_telling midway hm g).relax ?_
  intro _ s told
  rcases told with ⟨longer, begins, telling⟩
  exact ⟨longer, (kept.trans (List.prefix_append trail _)).trans begins, telling⟩

/-! ## One node of the sweep -/

theorem recipe_delivering (midway : Midway e deps visited rest)
    {recipe : Recipe K (Contribution K) Unit Unit}
    (own : recipe.AsksOnly r fun c => c.operand ∈ rest) :
    Triple (Delivering r e deps visited rest start first)
      (recipe.run (fun c => Work.within (r.make c)) (r.contribute (Registry.relevantTo e deps))
        fun e => Work.within (Work.refuse e))
      (fun _ => Delivering r e deps visited rest start first) fun _ _ => True := by
  refine own.run_keeps (fun c => .within fun flow w hs => ?_) fun c hc =>
    contribute_delivering midway hc c.gradient
  rcases hs with ⟨trail, kept, same, history, expected⟩
  have now : Quiet (start ++ trail) w := same ▸ Quiet.now w
  exact (make_quiet r c w now).imp (fun _ _ => .of_quiet kept history expected)
    fun _ _ _ => trivial

omit [Numeral K] in
/-- What is pending for a node is the total of what has been routed to it. -/
theorem takePending?_delivering (midway : Midway e deps visited (n :: rest))
    (application : n.isApplication = true) :
    Triple (Telling r e deps visited (n :: rest) start trail) (Registry.takePending? n.id)
      (fun total? s =>
        ((Above deps n → r.Totals (routed n.id trail) total?) ∧ (¬ Above deps n → total? = none)) ∧
        Telling r e deps visited rest start trail s) fun _ _ => True := by
  refine .take ?_
  intro s hs
  rcases s with ⟨w, flow⟩
  rcases hs with ⟨same, history, expected⟩
  have later : ∀ m ∈ rest, m.id ≠ n.id := by
    cases midway.sorted.of_append with
    | cons _ distinct _ => exact distinct
  refine ⟨⟨?_, ?_⟩, same, history, expected.visit later⟩
  · exact expected.waiting n List.mem_cons_self application
  · exact expected.irrelevant n List.mem_cons_self

theorem propagate_delivering (midway : Midway e deps visited (n :: rest))
    (own : r.RoutesToOperands e) :
    Triple (Delivering r e deps visited (n :: rest) start first)
      (r.propagate (Registry.relevantTo e deps) n)
      (fun _ => Delivering r e deps (visited ++ [n]) rest start first) fun _ _ => True := by
  refine .of_exists fun trail => .assuming fun kept => ?_
  cases n with
  | constant | leaf =>
      intro s hs
      rcases hs with ⟨same, history, expected⟩
      exact ⟨trail, kept, same, history.visit fun application => absurd application Bool.false_ne_true,
        expected.pass⟩
  | application id s operands =>
      have apart := midway.apart List.mem_cons_self
      have below := midway.below List.mem_cons_self
      have follow : ∀ m ∈ operands, m ∈ rest := by
        cases midway.sorted.of_append with
        | cons operands _ _ => exact operands
      rw [Registry.propagate]
      refine (takePending?_delivering midway rfl).bind fun total? => .assuming fun taken => ?_
      rcases taken with ⟨totals, idle⟩
      cases total? with
      | none =>
          -- nothing has been routed to the node, or no leaf lies below it
          intro s hs
          rcases hs with ⟨same, history, expected⟩
          have unfired := history.fired_eq_nil apart
          exact ⟨trail, kept, same, history.visit fun _ =>
            ⟨fun above => ⟨none, totals above, unfired⟩, fun _ => unfired⟩, expected⟩
      | some incoming =>
          have above : Above deps (.application id s operands) := by
            by_contra apart
            exact absurd (idle apart) (Option.some_ne_none incoming)
          dsimp only
          split
          · -- the total is zero, and the hook is passed over
            rename_i zero
            refine .within fun flow => .record fun w hs => ?_
            rcases hs with ⟨same, history, expected⟩
            have unfired := history.fired_eq_nil apart
            have nothing : (some incoming).filter (fun g => !g.isZero) = none := by
              simp [Option.filter, zero]
            have done := history.visit (n := .application id s operands) fun _ =>
              ⟨fun _ => ⟨some incoming, totals above, by rw [unfired, nothing]; rfl⟩,
                fun _ => unfired⟩
            exact .of_quiet kept done expected ((same ▸ Quiet.now w).push fun _ => ⟨rfl, rfl⟩)
          · rename_i nonzero
            split
            · exact .within fun _ => .refuse fun _ _ => trivial
            · -- the hook fires, and contributes to operands, which are visited later
              rename_i gradient hook
              refine Triple.bind
                (m := fun _ =>
                  Delivering r e deps (visited ++ [.application id s operands]) rest start first)
                (.within fun flow => .record fun w hs => ?_) fun _ => ?_
              · rcases hs with ⟨same, history, expected⟩
                refine ⟨trail ++ [.propagating id s incoming],
                  kept.trans (List.prefix_append trail _), ?_, ?_, ?_⟩
                · rw [Array.toList_push, same, List.append_assoc]
                · exact history.fire apart (totals above) above (Bool.eq_false_iff.2 nonzero)
                · exact expected.of_routed_eq fun i => routed_append_propagating id s incoming
              · exact recipe_delivering midway.next
                  ((own id s operands below gradient hook incoming).imp fun c => follow c.operand)

/-! ## The sweep -/

theorem sweep_delivering (midway : Midway e deps visited rest) (own : r.RoutesToOperands e) :
    Triple (Delivering r e deps visited rest start first)
      (rest.forM (r.propagate (Registry.relevantTo e deps)))
      (fun _ => Delivering r e deps (visited ++ rest) [] start first) fun _ _ => True := by
  induction rest generalizing visited with
  | nil =>
      rw [List.append_nil]
      exact .value fun _ => id
  | cons n rest ih =>
      rw [List.forM, List.append_cons]
      exact (propagate_delivering midway own).bind fun _ => ih midway.next

/-- What the trail of a sweep after some past tells, and what the sweep comes to. -/
structure Delivered (r : Registry K) (e : Node K) (deps : List (Node K)) (seed : Node K)
    (past trail : List (Event K)) (gradients : Gradients K) : Prop where
  /-- The seed is routed to the root before anything else. -/
  seeded : trail.head? = some (.contributed e seed)
  /-- Every hook that is told to fire is carried out there and then, to its end, for the gradient with
  which it fires and the operands of its node; what it tells is the next part of the trail. -/
  carried : ∀ before id s g after, trail = before ++ .propagating id s g :: after →
    ∃ part rest, after = part ++ rest ∧ r.Fires e deps (past ++ before) id s g (.ok ()) part
  /-- Whatever is routed after the seed comes of a hook that fires. -/
  origin : ∀ before m g after, trail = before ++ .contributed m g :: after → before = [] ∨
    ∃ earlier id s incoming front back rest,
      before = earlier ++ .propagating id s incoming :: front ∧ after = back ++ rest ∧
      r.Fires e deps (past ++ earlier) id s incoming (.ok ()) (front ++ .contributed m g :: back)
  /-- Every hook fires once with everything that is routed to its node, or not at all. -/
  served : ∀ n, e.Reaches n → n.isApplication = true → Served r deps trail n
  /-- Nothing is routed to a node after its hook has fired. -/
  last : trail.Pairwise fun earlier later =>
    ∀ id s g, earlier = .propagating id s g → later.routedTo? id = none
  /-- Every leaf that is asked for has the sum of everything that is routed to it. -/
  reached : ∀ x ∈ deps, r.Totals (routed x.id trail) (gradients.get? x)
  entries : ∀ id leaf g, gradients.reached[id]? = some (leaf, g) →
    (leaf ∈ deps ∧ e.Reaches leaf ∧ leaf.id = id) ∧ r.Sums (routed id trail) g

theorem Telling.delivered {seed : Node K} {s : Workspace K × Flow K}
    (midway : Midway e deps visited []) (begins : [.contributed e seed] <+: trail)
    (swept : r.Swept e deps seed start (.ok ()) trail)
    (h : Telling r e deps visited [] start trail s) :
    Delivered r e deps seed start trail s.2.gradients := by
  have all (n : Node K) : n ∈ visited ↔ e.Reaches n := by
    rw [← midway.mem_iff, List.append_nil]
  refine ⟨?_, fun _ _ _ _ _ => swept.carried rfl, fun _ _ _ _ => swept.routed rfl,
    fun n hn => h.history.served n ((all n).2 hn), h.history.last, h.expected.reached,
    fun id leaf g found => ?_⟩
  · rcases begins with ⟨more, rfl⟩
    rfl
  · rcases h.expected.entries id leaf g found with ⟨wanted, below, rfl⟩
    have total := h.expected.reached leaf wanted
    rw [Gradients.get?, found] at total
    exact ⟨⟨wanted, below, rfl⟩, total⟩

/-- A sweep that has the trail of its hooks delivers. -/
theorem backpropFrom_delivered (coherent : Node.Coherent (e :: deps)) (own : r.RoutesToOperands e)
    (seed : Node K) :
    Triple (fun w => w.events.toList = start) (r.backpropFrom e deps seed)
      (fun gradients w => ∃ trail, w.events.toList = start ++ trail ∧
        (r.Swept e deps seed start (.ok ()) trail → Delivered r e deps seed start trail gradients))
      fun _ _ => True := by
  rw [Registry.backpropFrom]
  refine Triple.bind (m := fun _ w => (∀ x ∈ deps, x.isLeaf = true) ∧ w.events.toList = start)
    (.ofExcept ?_ fun _ _ _ _ => trivial) fun _ => .assuming fun leaves => ?_
  · exact fun _ accepted _ same => ⟨Registry.forM_checkDependency_iff.1 accepted, same⟩
  dsimp only
  split
  · exact Triple.bind (m := fun _ _ => False) (.refuse fun _ _ => trivial) fun _ _ => False.elim
  have midway : Midway e deps [] e.postOrder.reverse := ⟨coherent, leaves, rfl⟩
  have root : e ∈ e.postOrder.reverse := by
    rw [List.mem_reverse, Node.mem_postOrder_iff (coherent.of_subset (by simp))]
    exact .refl e
  have first : Triple (Telling r e deps [] e.postOrder.reverse start [])
      (r.contribute (Registry.relevantTo e deps) ⟨e, seed⟩)
      (fun _ => Delivering r e deps [] e.postOrder.reverse start [.contributed e seed])
      fun _ _ => True := contribute_telling midway root seed
  refine .starting (Triple.bind (first.strengthen ?_) fun _ =>
    (sweep_delivering midway own).bind fun _ => ?_)
  · intro s hs
    rcases s with ⟨w, flow⟩
    rcases hs with ⟨same, rfl⟩
    exact ⟨same.trans (List.append_nil start).symm, .empty, .empty⟩
  · intro s hs
    rcases hs with ⟨trail, begins, telling⟩
    exact ⟨trail, telling.events, fun swept =>
      telling.delivered ⟨coherent, leaves, by simp⟩ begins swept⟩

/-- Every hook receives its total gradient once.  If a sweep comes to an end, whatever the operators
do that contribute to their own operands only, the hook of a node above a leaf that is asked for has
fired once with the sum of everything that was routed to the node in the whole sweep, unless nothing
was or the sum is zero; a hook that fires is carried out there and then for that sum, and but for the
seed nothing else is routed; and every leaf has the sum of what was routed to it. -/
theorem backprop_delivers {seed : Node K} {gradients : Gradients K} {w w' : Workspace K}
    (coherent : Node.Coherent (e :: deps)) (own : r.RoutesToOperands e)
    (run : (r.backpropFrom e deps seed).runIn w = (.ok gradients, w')) :
    ∃ trail, w'.events.toList = w.events.toList ++ trail ∧
      Delivered r e deps seed w.events.toList trail gradients := by
  rcases (backpropFrom_delivered coherent own seed).of_runIn_eq_ok rfl run with
    ⟨trail, events, delivered⟩
  rcases (Registry.backpropFrom_swept r e seed deps).of_runIn_eq_ok rfl run with
    ⟨told, events', swept⟩
  -- both speak of what has been told since the sweep began
  obtain rfl : told = trail := List.append_cancel_left (events'.symm.trans events)
  exact ⟨told, events, delivered swept⟩

end

end

/-! ## Standard operators -/

namespace Standard

variable {K : Type} [Field K] [Arithmetic K] [FieldArithmetic K] [AngleArithmetic K] [Numeral K]
  {e seed : Node K} {deps : List (Node K)}

/-- A sweep over standard expressions comes to its end. -/
theorem backpropFrom_eq_ok (typed : e.WellTyped (Registry.standard : Registry K).Knows)
    (seedTyped : seed.WellTyped (Registry.standard : Registry K).Knows)
    (shape : seed.shape = e.shape) (leaves : ∀ x ∈ deps, x.isLeaf = true)
    (coherent : Node.Coherent (e :: deps)) (smooth : ∀ x ∈ deps, SmoothAbove x e)
    (w : Workspace K) :
    ∃ gradients w', ((Registry.standard : Registry K).backpropFrom e deps seed).runIn w =
      (.ok gradients, w') := by
  -- no value is asked for, so any assignment, leaf and tangent will do
  have sweepable : Sweepable False (fun _ => .zero .scalar) e (.zero .scalar) e deps :=
    ⟨typed, coherent, leaves, smooth, False.elim, False.elim⟩
  have denotes : Denotes False (fun _ => .zero .scalar) seed e.shape
      (seed.value Standard.meaning fun _ => .zero .scalar) :=
    shape ▸ .of_typed seedTyped False.elim
  rcases Triple.runIn_eq_ok (backpropFrom_triple sweepable denotes) (w := w) trivial with
    ⟨gradients, w', run, _⟩
  exact ⟨gradients, w', run⟩

/-- The gradient of a square, which has its leaf for both operands. -/
theorem backprop_delivers_square :
    let x : Node ℚ := .leaf 4 "x" .scalar
    let square : Node ℚ := .application 5 Operator.multiplication.signature [x, x]
    let seed : Node ℚ := .constant 6 (.scalar 1)
    ∃ gradients w' trail, ((Registry.standard : Registry ℚ).backpropFrom square [x] seed).runIn
        .standard = (.ok gradients, w') ∧
      w'.events.toList = (.standard : Workspace ℚ).events.toList ++ trail ∧
      Delivered .standard square [x] seed (.standard : Workspace ℚ).events.toList trail
        gradients := by
  intro x square seed
  have typed : square.WellTyped (Registry.standard : Registry ℚ).Knows :=
    typed_application .multiplication 5 rfl (by simpa [x] using Node.WellTyped.leaf 4 "x" .scalar)
  have coherent : Node.Coherent [square, x] :=
    .of_closed (by simp [square, x]) (by simp [square, x])
  have plain : Smooth x := Node.appliesOnly_of_plain rfl
  have smooth : Smooth square := by
    rw [smooth_application]
    exact ⟨⟨nofun, nofun⟩, List.forall_mem_cons.2 ⟨plain, List.forall_mem_singleton.2 plain⟩⟩
  rcases backpropFrom_eq_ok typed (.constant 6 rfl : seed.WellTyped _) rfl (by simp [x, Node.isLeaf])
    coherent (fun z _ => smooth.above z) .standard with ⟨gradients, w', run⟩
  rcases backprop_delivers coherent (routesToOperands square) run with ⟨trail, events, delivered⟩
  exact ⟨gradients, w', trail, run, events, delivered⟩

end Standard

end SymbolicLinalg
