import SymbolicLinalg.Gradient
import SymbolicLinalg.Proofs.Composition
import SymbolicLinalg.Proofs.Relevance

/-!
# Upstream — the shapes of gradients

A contribution is checked to have the shape of the node that it goes to, and so is the seed.  A sum of
contributions is not: its shape is what the registry makes of `+` over two operands of that shape.  If
`+` adds alike, a sweep therefore hands every hook a gradient of the shape of its application, and what
it leaves at a leaf has the shape of the leaf, however many contributions there were.

* `Registry.AddsAlike`: sums have the shape of their operands;
* `Streams`: the invariant of a sweep;
* `backpropFrom_streams_within`: the sweep, whether or not it comes to its end.
-/

namespace SymbolicLinalg

variable {K : Type}

/-- Whatever `+` makes of two operands of one shape has that shape. -/
def Registry.AddsAlike (r : Registry K) : Prop :=
  ∀ s d, r.resolve "+" [s, s] = .ok d → d.signature.result = s

/-- A sweep may be over expressions with more operators than its registry has, as long as sums are
alike where they are in the larger one. -/
structure Registry.Within (part r : Registry K) : Prop where
  definitions : part.definitions ⊆ r.definitions
  adds : r.AddsAlike → part.AddsAlike

theorem Registry.Within.refl (r : Registry K) : r.Within r :=
  ⟨List.Subset.refl _, id⟩

/-- If a hook fires in the event, it receives a gradient of the shape of its application. -/
def Event.Upstream : Event K → Prop
  | .propagating _ s incoming => incoming.shape = s.result
  | _ => True

variable {atoms : Node K → Prop} {r part : Registry K} {past : List (Event K)}
  {captured base around more drawn : List (Node K)} {n g : Node K}

/-! ## What a sweep holds -/

/-- A gradient of a node: it is composed, and it has the shape of the node if sums have the shapes of
their operands. -/
structure GradientOf (atoms : Node K → Prop) (r : Registry K) (around : List (Node K))
    (n g : Node K) : Prop where
  node : Node.Below around n
  below : Node.Below around g
  composed : g.Composed atoms r
  shape : r.AddsAlike → g.shape = n.shape

theorem GradientOf.mono (h : GradientOf atoms r around n g) (sub : around ⊆ more) :
    GradientOf atoms r more n g :=
  ⟨h.node.mono sub, h.below.mono sub, h.composed, h.shape⟩

/-- Whatever is pending or has reached a leaf is a gradient of its node. -/
structure Conducts (atoms : Node K → Prop) (r : Registry K) (around : List (Node K))
    (flow : Flow K) : Prop where
  pending : ∀ (id : NodeId) (g : Node K), flow.pending[id]? = some g →
    ∃ n, n.id = id ∧ GradientOf atoms r around n g
  reached : ∀ (id : NodeId) (leaf g : Node K), flow.gradients.reached[id]? = some (leaf, g) →
    leaf.id = id ∧ leaf.isLeaf = true ∧ GradientOf atoms r around leaf g

namespace Conducts

variable {flow : Flow K}

theorem empty : Conducts atoms r around ⟨∅, .empty⟩ where
  pending id g found := by simp at found
  reached id leaf g found := by simp [Gradients.empty] at found

theorem mono (h : Conducts atoms r around flow) (sub : around ⊆ more) :
    Conducts atoms r more flow where
  pending id g found := by
    rcases h.pending id g found with ⟨n, same, gradient⟩
    exact ⟨n, same, gradient.mono sub⟩
  reached id leaf g found := by
    rcases h.reached id leaf g found with ⟨same, isLeaf, gradient⟩
    exact ⟨same, isLeaf, gradient.mono sub⟩

theorem insert_pending (h : Conducts atoms r around flow) (gradient : GradientOf atoms r around n g) :
    Conducts atoms r around { flow with pending := flow.pending.insert n.id g } where
  pending id x found := by
    rw [Std.HashMap.getElem?_insert] at found
    split at found
    · rename_i same
      exact ⟨n, beq_iff_eq.1 same, Option.some.inj found ▸ gradient⟩
    · exact h.pending id x found
  reached := h.reached

theorem insert_gradient (h : Conducts atoms r around flow) (isLeaf : n.isLeaf = true)
    (gradient : GradientOf atoms r around n g) :
    Conducts atoms r around { flow with gradients := flow.gradients.insert n g } where
  pending := h.pending
  reached id leaf x found := by
    rw [Gradients.insert, Std.HashMap.getElem?_insert] at found
    split at found
    · rename_i same
      obtain ⟨rfl, rfl⟩ := Prod.mk.inj (Option.some.inj found)
      exact ⟨beq_iff_eq.1 same, isLeaf, gradient⟩
    · exact h.reached id leaf x found

theorem erase (h : Conducts atoms r around flow) (id : NodeId) :
    Conducts atoms r around { flow with pending := flow.pending.erase id } where
  pending i g found := by
    rw [Std.HashMap.getElem?_erase] at found
    split at found
    · exact absurd found nofun
    · exact h.pending i g found
  reached := h.reached

/-- What has reached a leaf is a gradient of it. -/
theorem of_get? (h : Conducts atoms r around flow) (coherent : Node.Coherent around)
    (below : Node.Below around n) (found : flow.gradients.get? n = some g) :
    GradientOf atoms r around n g := by
  rcases Option.map_eq_some_iff.1 found with ⟨⟨leaf, x⟩, entry, rfl⟩
  rcases h.reached n.id leaf x entry with ⟨same, _, gradient⟩
  rwa [coherent.eq_of_id_eq gradient.node below same] at gradient

end Conducts

/-- The workspace of a sweep: nodes are around, and hooks have received gradients of the right shapes
since some past. -/
structure Streaming (r : Registry K) (past : List (Event K)) (around : List (Node K))
    (w : Workspace K) : Prop where
  stock : Stock Registry.anyName around [] w.nextId
  told : ToldSince past (fun event => r.AddsAlike → event.Upstream) w

theorem Streaming.of_subset {w : Workspace K} (h : Streaming r past more w) (sub : around ⊆ more) :
    Streaming r past around w :=
  ⟨h.stock.of_subset sub, h.told⟩

theorem Streaming.push {w : Workspace K} (h : Streaming r past around w) {event : Event K}
    (kind : r.AddsAlike → event.Upstream) :
    Streaming r past around { w with events := w.events.push event } :=
  ⟨h.stock, h.told.push kind⟩

/-- The state of a sweep. -/
structure Streams (atoms : Node K → Prop) (r : Registry K) (past : List (Event K))
    (around : List (Node K)) (s : Workspace K × Flow K) : Prop where
  workspace : Streaming r past around s.1
  flow : Conducts atoms r around s.2

/-- When a sweep is given up, what was around still is. -/
abbrev Dropped (r : Registry K) (past : List (Event K)) (base : List (Node K)) (_ : Fault)
    (s : Workspace K × Flow K) : Prop :=
  Streaming r past base s.1

/-! ## Sums -/

namespace Registry

/-- Construction in the workspace of a sweep. -/
theorem make_streaming (constructs : r.Constructs atoms captured)
    (within : part.definitions ⊆ r.definitions) {c : Construction K}
    (held : captured ⊆ drawn) (makes : c.Makes atoms) (draws : c.Draws anyName drawn)
    (ready : ∀ n ∈ drawn, Node.Below around n ∧ n.Composed atoms r) :
    Triple (Streaming r past around) (part.make c)
      (fun n w => ∃ more, around ⊆ more ∧ (Node.Below more n ∧ n.Composed atoms r) ∧
        part.Promises c n ∧ Streaming r past more w)
      fun _ => Streaming r past around := by
  have tells : Triple (ToldSince past fun event => r.AddsAlike → event.Upstream) (part.make c)
      (fun _ => ToldSince past fun event => r.AddsAlike → event.Upstream)
      fun _ => ToldSince past fun event => r.AddsAlike → event.Upstream :=
    make_tells (fun _ _ _ => trivial) part c
  refine (((make_gathers constructs within held makes draws around).both tells).both
    (make_promises part c)).weaken ?_ ?_ ?_
  · exact fun w h => ⟨⟨.of_stock h.stock (fun n hn => (ready n hn).1) fun n hn => (ready n hn).2,
      h.told⟩, trivial⟩
  · intro n w h
    rcases h with ⟨⟨gathered, told⟩, promise⟩
    refine ⟨(n :: drawn) ++ around, List.subset_append_right _ around, ⟨?_, ?_⟩, promise,
      gathered.stock_append, told⟩
    · exact .of_mem (List.mem_append_left around List.mem_cons_self)
    · exact gathered.composed n List.mem_cons_self
  · exact fun _ w h => ⟨h.1.1.stock_others, h.1.2⟩

theorem make_streams (constructs : r.Constructs atoms captured)
    (within : part.definitions ⊆ r.definitions) {c : Construction K}
    (held : captured ⊆ drawn) (sub : base ⊆ around) (makes : c.Makes atoms)
    (draws : c.Draws anyName drawn)
    (ready : ∀ n ∈ drawn, Node.Below around n ∧ n.Composed atoms r) :
    Triple (Streams atoms r past around) (Work.within (part.make c))
      (fun n s => ∃ more, around ⊆ more ∧ (Node.Below more n ∧ n.Composed atoms r) ∧
        Streams atoms r past more s) (Dropped r past base) := by
  refine .within fun flow w h => ?_
  refine (make_streaming constructs within held makes draws ready w h.workspace).imp ?_ ?_
  · intro n w' hs
    rcases hs with ⟨more, grown, made, _, streaming⟩
    exact ⟨more, grown, made, streaming, h.flow.mono grown⟩
  · exact fun _ w' streaming => streaming.of_subset sub

variable (constructs : r.Constructs atoms captured) (within : part.Within r) (held : captured ⊆ base)

include constructs within held

/-- A sum is a gradient of the node if its parts are. -/
theorem accumulate_streaming (sub : base ⊆ around) {total? : Option (Node K)}
    (total : ∀ t ∈ total?, GradientOf atoms r around n t) (gradient : GradientOf atoms r around n g)
    (shape : g.shape = n.shape) :
    Triple (Streaming r past around) (part.accumulate total? g)
      (fun sum w => ∃ more, around ⊆ more ∧ GradientOf atoms r more n sum ∧ Streaming r past more w)
      fun _ => Streaming r past around := by
  cases total? with
  | none => exact .value fun w h => ⟨around, List.Subset.refl around, gradient, h⟩
  | some t =>
      have first := total t rfl
      have ready : ∀ m ∈ captured ++ [t, g], Node.Below around m ∧ m.Composed atoms r := by
        refine List.forall_mem_append.2
          ⟨fun m hm => ⟨.of_mem (sub (held hm)), constructs.composed m hm⟩, ?_⟩
        exact List.forall_mem_cons.2 ⟨⟨first.below, first.composed⟩,
          List.forall_mem_singleton.2 ⟨gradient.below, gradient.composed⟩⟩
      refine (make_streaming constructs within.definitions (List.subset_append_left captured [t, g])
        (c := .apply "+" [t, g]) trivial
        ⟨trivial, fun m hm => .of_mem (List.mem_append_right captured hm)⟩ ready).relax ?_
      intro sum w h
      rcases h with ⟨more, grown, ⟨below, composed⟩, ⟨d, found, result⟩, streaming⟩
      refine ⟨more, grown, ⟨gradient.node.mono grown, below, composed, fun adds => ?_⟩, streaming⟩
      -- nothing checks the shape of a sum: it is that of the operator the two shapes resolve to
      have shapes : [t, g].map Node.shape = [n.shape, n.shape] := by
        rw [List.map_cons, List.map_singleton, first.shape adds, shape]
      rw [shapes] at found
      rw [result, within.adds adds n.shape d found]

/-- A new total is kept, be it for a leaf or for an application. -/
theorem keepTotal_streams (keep : Flow K → Node K → Flow K) (sub : base ⊆ around)
    {total? : Option (Node K)} (total : ∀ t ∈ total?, GradientOf atoms r around n t)
    (gradient : GradientOf atoms r around n g) (shape : g.shape = n.shape) {flow : Flow K}
    (kept : ∀ sum more, around ⊆ more → GradientOf atoms r more n sum →
      Conducts atoms r more (keep flow sum)) :
    Triple (fun s => Streaming r past around s.1 ∧ s.2 = flow)
      (do
        let sum ← Work.within (part.accumulate total? g)
        modify fun (w, flow) => (w, keep flow sum))
      (fun _ s => ∃ more, around ⊆ more ∧ Streams atoms r past more s) (Dropped r past base) := by
  refine Triple.bind (m := fun sum s => ∃ more, around ⊆ more ∧ GradientOf atoms r more n sum ∧
    Streaming r past more s.1 ∧ s.2 = flow) (.within fun now w h => ?_) fun sum => .update ?_
  · refine (accumulate_streaming constructs within held sub total gradient shape w h.1).imp ?_ ?_
    · intro sum w' hs
      rcases hs with ⟨more, grown, summed, streaming⟩
      exact ⟨more, grown, summed, streaming, h.2⟩
    · exact fun _ w' streaming => streaming.of_subset sub
  · intro s hs
    rcases hs with ⟨more, grown, summed, streaming, rfl⟩
    exact ⟨more, grown, streaming, kept sum more grown summed⟩

variable [Arithmetic K] [Numeral K]

/-! ## Contributions -/

theorem contribute_streams (relevant : Std.HashSet NodeId) (c : Contribution K)
    (sub : base ⊆ around) (operand : Node.Below around c.operand)
    (below : Node.Below around c.gradient) (composed : c.gradient.Composed atoms r) :
    Triple (Streams atoms r past around) (part.contribute relevant c)
      (fun _ s => ∃ more, around ⊆ more ∧ Streams atoms r past more s) (Dropped r past base) := by
  rw [contribute]
  dsimp only
  split
  · exact Triple.bind (m := fun _ _ => False)
      (.within fun _ => .refuse fun _ h => h.workspace.of_subset sub) fun _ _ => False.elim
  rename_i fits
  have shape := not_not.1 fits
  have gradient : GradientOf atoms r around c.operand c.gradient :=
    ⟨operand, below, composed, fun _ => shape⟩
  refine Triple.bind (m := fun _ => Streams atoms r past around)
    (.within fun _ => .record fun _ h => ⟨h.workspace.push fun _ => trivial, h.flow⟩) fun _ => ?_
  split
  · refine Triple.bind (m := fun (now : Workspace K × Flow K) s => Conducts atoms r around now.2 ∧
      (Streaming r past around s.1 ∧ s.2 = now.2)) (.read fun s h => ⟨h.flow, h.workspace, rfl⟩)
      fun now => ?_
    refine .assuming fun conducts => ?_
    rcases now with ⟨_, flow⟩
    dsimp only at conducts ⊢
    split
    -- the total so far is looked up by identity, which tells apart the nodes that are around
    · rename_i isLeaf
      let keep (flow : Flow K) (sum : Node K) : Flow K :=
        { flow with gradients := flow.gradients.insert c.operand sum }
      intro s hs
      refine keepTotal_streams constructs within held keep sub (fun t ht => ?_) gradient shape
        (fun sum more grown summed => ?_) s hs
      · exact conducts.of_get? hs.1.stock.coherent_given operand ht
      · exact (conducts.mono grown).insert_gradient isLeaf summed
    · let keep (flow : Flow K) (sum : Node K) : Flow K :=
        { flow with pending := flow.pending.insert c.operand.id sum }
      intro s hs
      refine keepTotal_streams constructs within held keep sub (fun t ht => ?_) gradient shape
        (fun sum more grown summed => ?_) s hs
      · rcases conducts.pending c.operand.id t ht with ⟨n, same, gradient⟩
        rwa [hs.1.stock.coherent_given.eq_of_id_eq gradient.node operand same] at gradient
      · exact (conducts.mono grown).insert_pending summed
  · exact .value fun s h => ⟨around, List.Subset.refl around, h⟩

/-! ## Visits -/

omit constructs within held in
/-- Hooks that route gradients draw on the operands and on the gradient they receive, and make
atoms. -/
def Routes (atoms : Node K → Prop) (captured : List (Node K)) (r : Registry K) : Prop :=
  ∀ s rule, (r.hooks s).gradient = some rule → ∀ (g : Node K) (operands given : List (Node K)),
    captured ⊆ given → (∀ m ∈ operands, Node.Below given m) → Node.Below given g →
      (rule g operands).Yields atoms given fun _ _ => True

theorem propagate_streams (routes : part.Routes atoms captured) (relevant : Std.HashSet NodeId)
    (sub : base ⊆ around) (below : Node.Below around n) (composed : n.Composed atoms r) :
    Triple (Streams atoms r past around) (part.propagate relevant n)
      (fun _ s => ∃ more, around ⊆ more ∧ Streams atoms r past more s) (Dropped r past base) := by
  have same (s : Workspace K × Flow K) (h : Streams atoms r past around s) :
      ∃ more, around ⊆ more ∧ Streams atoms r past more s := ⟨around, List.Subset.refl around, h⟩
  cases n with
  | constant | leaf => exact .value same
  | application id s operands =>
      rw [propagate]
      refine Triple.bind (m := fun total? s' =>
        (∀ t ∈ total?, GradientOf atoms r around (.application id s operands) t) ∧
          Streams atoms r past around s') (.take fun s' h => ⟨fun t ht => ?_, ?_⟩)
        fun total? => .assuming fun total => ?_
      · rcases h.flow.pending id t ht with ⟨n, same, gradient⟩
        rwa [h.workspace.stock.coherent_given.eq_of_id_eq gradient.node below same] at gradient
      · exact ⟨h.workspace, h.flow.erase id⟩
      cases total? with
      | none => exact .value same
      | some incoming =>
          have gradient := total incoming rfl
          dsimp only
          split
          · exact .within fun _ => .record fun _ h =>
              same _ ⟨h.workspace.push fun _ => trivial, h.flow⟩
          split
          · exact .within fun _ => .refuse fun _ h => h.workspace.of_subset sub
          · rename_i rule hook
            refine Triple.bind (m := fun _ => Streams atoms r past around)
              (.within fun _ => .record fun _ h => ⟨h.workspace.push gradient.shape, h.flow⟩)
              fun _ => ?_
            -- the hook has the gradient and the operands, and what it has captured
            have yields := routes s rule hook incoming operands (captured ++ incoming :: operands)
              (List.subset_append_left captured _)
              (fun m hm => .of_mem (List.mem_append_right captured (List.mem_cons_of_mem _ hm)))
              (.of_mem (List.mem_append_right captured List.mem_cons_self))
            have ready : ∀ m ∈ captured ++ incoming :: operands,
                Node.Below around m ∧ m.Composed atoms r := by
              refine List.forall_mem_append.2
                ⟨fun m hm => ⟨.of_mem (sub (held hm)), constructs.composed m hm⟩, ?_⟩
              exact List.forall_mem_cons.2 ⟨⟨gradient.below, gradient.composed⟩, fun m hm =>
                ⟨below.of_reaches (.of_mem_operands hm), composed.of_reaches (.of_mem_operands hm)⟩⟩
            refine (yields.keeps_run (fun c given more held' grown makes draws ready =>
              make_streams constructs within.definitions held' (List.Subset.trans sub grown) makes
                draws ready)
              (fun c more grown shown => ?_) (fun e more grown => ?_)
              (List.subset_append_left captured _) (List.Subset.refl around) ready).relax ?_
            · have operand := shown c.operand List.mem_cons_self
              have routed := shown c.gradient (List.mem_cons_of_mem _ List.mem_cons_self)
              refine (contribute_streams constructs within held relevant c
                (List.Subset.trans sub grown) operand.1 routed.1 routed.2).relax fun _ s h => ?_
              rcases h with ⟨later, grown', streams⟩
              exact ⟨later, grown', fun m hm => absurd hm List.not_mem_nil, streams⟩
            · exact .within fun _ => .refuse fun _ h =>
                h.workspace.of_subset (List.Subset.trans sub grown)
            · intro _ s h
              rcases h with ⟨_, more, grown, _, _, streams⟩
              exact ⟨more, grown, streams⟩

theorem sweep_streams (routes : part.Routes atoms captured) (relevant : Std.HashSet NodeId)
    {nodes : List (Node K)} (sub : base ⊆ around)
    (ready : ∀ n ∈ nodes, Node.Below around n ∧ n.Composed atoms r) :
    Triple (Streams atoms r past around) (nodes.forM (part.propagate relevant))
      (fun _ s => ∃ more, around ⊆ more ∧ Streams atoms r past more s) (Dropped r past base) := by
  induction nodes generalizing around with
  | nil => exact .value fun s h => ⟨around, List.Subset.refl around, h⟩
  | cons n rest ih =>
      rw [List.forall_mem_cons] at ready
      rw [List.forM]
      refine (propagate_streams constructs within held routes relevant sub ready.1.1
        ready.1.2).bind ?_
      intro _
      refine .of_exists fun more => .assuming fun grown => ?_
      refine (ih (List.Subset.trans sub grown) fun m hm =>
        ⟨(ready.2 m hm).1.mono grown, (ready.2 m hm).2⟩).relax ?_
      intro _ s h
      rcases h with ⟨later, grown', streams⟩
      exact ⟨later, List.Subset.trans grown grown', streams⟩

/-- Whatever the hooks do, a sweep hands them gradients of the right shapes, and so are the gradients
it leaves, if sums have the shapes of their operands. -/
theorem backpropFrom_streams_within (routes : part.Routes atoms captured) {e seed : Node K}
    (root : Node.Below base e) (composed : e.Composed atoms r) (upstream : Node.Below base seed)
    (made : seed.Composed atoms r) (deps : List (Node K)) :
    Triple (Streaming r past base) (part.backpropFrom e deps seed)
      (fun gradients w => ∃ more pending, base ⊆ more ∧ Streams atoms r past more
        (w, ⟨pending, gradients⟩)) fun _ => Streaming r past base := by
  -- post-order lists just the nodes below the root if no two of them share an identity
  suffices sweeps : Node.Coherent [e] → Triple _ _ _ _ from fun w streaming =>
    sweeps (streaming.stock.coherent_given.of_below (List.forall_mem_singleton.2 root)) w streaming
  intro alone
  rw [backpropFrom]
  refine Triple.bind (m := fun _ => Streaming r past base)
    (.ofExcept (fun _ _ _ => id) fun _ _ _ => id) fun _ => ?_
  dsimp only
  split
  · exact Triple.bind (m := fun _ _ => False) (.refuse fun _ => id) fun _ _ => False.elim
  have first : Triple (Streams atoms r past base) _ _ _ :=
    contribute_streams constructs within held (relevantTo e deps) ⟨e, seed⟩ (List.Subset.refl base)
      root upstream made
  refine .starting (Triple.bind (first.strengthen ?_) fun _ => ?_)
  · intro s hs
    rcases s with ⟨w, flow⟩
    rcases hs with ⟨streaming, rfl⟩
    exact ⟨streaming, .empty⟩
  refine .of_exists fun now => .assuming fun grown => ?_
  -- the nodes that are visited lie below the root
  have visited : ∀ n ∈ e.postOrder.reverse, Node.Below now n ∧ n.Composed atoms r := by
    intro n hn
    rw [List.mem_reverse, Node.mem_postOrder_iff alone] at hn
    exact ⟨(root.of_reaches hn).mono grown, composed.of_reaches hn⟩
  refine (sweep_streams constructs within held routes _ grown visited).bind fun _ => ?_
  intro s hs
  rcases s with ⟨w, flow⟩
  rcases hs with ⟨more, grown', streams⟩
  exact ⟨more, flow.pending, List.Subset.trans grown grown', streams⟩

omit within in
/-- A sweep over expressions with the operators of its registry. -/
theorem backpropFrom_streams (routes : r.Routes atoms captured) {e seed : Node K}
    (root : Node.Below base e) (composed : e.Composed atoms r) (upstream : Node.Below base seed)
    (made : seed.Composed atoms r) (deps : List (Node K)) :
    Triple (Streaming r past base) (r.backpropFrom e deps seed)
      (fun gradients w => ∃ more pending, base ⊆ more ∧ Streams atoms r past more
        (w, ⟨pending, gradients⟩)) fun _ => Streaming r past base :=
  backpropFrom_streams_within constructs (.refl r) held routes root composed upstream made deps

end Registry

end SymbolicLinalg
