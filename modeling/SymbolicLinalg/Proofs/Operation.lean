import SymbolicLinalg.Proofs.Likeness
import SymbolicLinalg.Proofs.Upstream

/-!
# Operation — what can be asked of a registry

Whatever makes expressions is an operation of a registry: construction, lowering, folding,
substitution and the two ways of differentiation.  Hooks are honest if they build nodes through the
registry only.  Of honest hooks nothing else is assumed: they may answer with any shape, ask for
anything and refuse at any time.

* `Definition.Honest`: what is assumed of hooks;
* `Operation.Promise`: what is known of the shapes that an operation comes to;
* `Operation.run_triple`: operations keep their promises, and come to composed nodes.
-/

namespace SymbolicLinalg

variable {K : Type}

/-! ## Honest hooks -/

/-- The hooks build nodes through the registry only: they apply operators to what they are given, to
what they have captured when they were defined and to what they have made, and hand out nothing
else. -/
structure Definition.Honest (captured : List (Node K)) (d : Definition K) : Prop where
  optimize {rule : List (Node K) → Rule K (Option (Node K))} : d.hooks.optimize = some rule →
    ∀ {operands given : List (Node K)}, captured ⊆ given → (∀ m ∈ operands, Node.Below given m) →
      (rule operands).Draws Registry.anyName given fun now n? => ∀ n ∈ n?, Node.Below now n
  expand {rule : List (Node K) → Rule K (Option (Node K))} : d.hooks.expand = some rule →
    ∀ {operands given : List (Node K)}, captured ⊆ given → (∀ m ∈ operands, Node.Below given m) →
      (rule operands).Draws Registry.anyName given fun now n? => ∀ n ∈ n?, Node.Below now n
  replace {rule : List (Node K) → Rule K (Node K)} : d.hooks.replace = some rule →
    ∀ {operands given : List (Node K)}, captured ⊆ given → (∀ m ∈ operands, Node.Below given m) →
      (rule operands).Draws Registry.anyName given Node.Below
  deriv {rule : Node K → List (Node K) → Recipe K (Node K) (Node K) (Node K)} :
    d.hooks.deriv = some rule → ∀ {wrt : Node K} {operands given : List (Node K)},
      captured ⊆ given → Node.Below given wrt → (∀ m ∈ operands, Node.Below given m) →
        (rule wrt operands).Draws Registry.anyName given Node.Below
  gradient {rule : Node K → List (Node K) → Recipe K (Contribution K) Unit Unit} :
    d.hooks.gradient = some rule → ∀ {g : Node K} {operands given : List (Node K)},
      captured ⊆ given → Node.Below given g → (∀ m ∈ operands, Node.Below given m) →
        (rule g operands).Draws Registry.anyName given fun _ _ => True

theorem Definition.Honest.mono {captured more : List (Node K)} {d : Definition K}
    (h : d.Honest captured) (sub : captured ⊆ more) : d.Honest more where
  optimize hook _ _ held := h.optimize hook (List.Subset.trans sub held)
  expand hook _ _ held := h.expand hook (List.Subset.trans sub held)
  replace hook _ _ held := h.replace hook (List.Subset.trans sub held)
  deriv hook _ _ _ held := h.deriv hook (List.Subset.trans sub held)
  gradient hook _ _ _ held := h.gradient hook (List.Subset.trans sub held)

/-- Every constant and every leaf is an atom. -/
abbrev anyNode (_ : Node K) : Prop :=
  True

theorem Recipe.makes_anyNode {ρ σ α : Type} (recipe : Recipe K ρ σ α) : recipe.Makes anyNode := by
  induction recipe with
  | done | refuse => trivial
  | make c next ih => exact ⟨by cases c <;> simp [Construction.Makes], ih⟩
  | ask request next ih => exact ih

namespace Registry

variable {r : Registry K} {captured : List (Node K)}

/-- A signature has the hooks of a definition, or none. -/
theorem definition_of_hook {β : Type} (F : Hooks K → Option β) (none : F {} = none) {s : Signature}
    {rule : β} (hook : F (r.hooks s) = some rule) :
    ∃ d ∈ r.definitions, F d.hooks = some rule := by
  rw [hooks] at hook
  split at hook
  · rename_i d found
    exact ⟨d, List.mem_of_find?_eq_some found, hook⟩
  · exact absurd (hook.symm.trans none) (Option.some_ne_none rule)

variable (honest : ∀ d ∈ r.definitions, d.Honest captured)

include honest

theorem constructs_of_honest (composed : ∀ n ∈ captured, n.Composed anyNode r) :
    r.Constructs anyNode captured where
  draws d hd _ _ hook _ _ held below := (honest d hd).optimize hook held below
  simplifies _ _ optimize _ operands _ _ := (optimize operands).makes_anyNode
  composed := composed

theorem expands_of_honest : r.Expands anyNode captured where
  expand {s rule} hook operands given held below := by
    rcases definition_of_hook (·.expand) rfl hook with ⟨d, hd, hook⟩
    exact ⟨(honest d hd).expand hook held below, Recipe.makes_anyNode _⟩
  replace {s rule} hook operands given held below := by
    rcases definition_of_hook (·.replace) rfl hook with ⟨d, hd, hook⟩
    exact ⟨(honest d hd).replace hook held below, Recipe.makes_anyNode _⟩

theorem derives_of_honest [Arithmetic K] {wrt : Node K} (known : Node.Below captured wrt) :
    r.Derives anyNode captured wrt where
  deriv {s rule} hook operands given held below := by
    rcases definition_of_hook (·.deriv) rfl hook with ⟨d, hd, hook⟩
    exact ⟨(honest d hd).deriv hook held (known.mono held) below, Recipe.makes_anyNode _⟩
  zero _ _ := trivial
  one _ _ := trivial

theorem routes_of_honest : r.Routes anyNode captured := by
  intro s rule hook g operands given held below upstream
  rcases definition_of_hook (·.gradient) rfl hook with ⟨d, hd, hook⟩
  exact ⟨(honest d hd).gradient hook held upstream below, Recipe.makes_anyNode _⟩

end Registry

/-! ## Operations -/

/-- The nodes to which a construction applies an operator. -/
def Construction.operands : Construction K → List (Node K)
  | .constant _ | .leaf _ _ => []
  | .apply _ operands | .applyFor _ _ operands => operands

/-- One thing that can be asked of a registry. -/
inductive Operation (K : Type) where
  | make (c : Construction K)
  | build (d : Definition K) (operands : List (Node K))
  | lower (n : Node K)
  | fold (n : Node K)
  | substitute (n : Node K) (bindings : List (Binding K))
  | derivative (n wrt : Node K)
  | backprop (root : Node K) (leaves : List (Node K))
  | backpropFrom (root : Node K) (leaves : List (Node K)) (seed : Node K)

namespace Operation

/-- The nodes that an operation is about. -/
def operands : Operation K → List (Node K)
  | .make c => c.operands
  | .build _ operands => operands
  | .lower n | .fold n => [n]
  | .substitute n bindings => n :: (bindings.map (·.leaf) ++ bindings.map (·.replacement))
  | .derivative n wrt => [n, wrt]
  | .backprop root leaves => root :: leaves
  | .backpropFrom root leaves seed => root :: seed :: leaves

/-- Only what the registry has resolved can be built. -/
def Allowed (r : Registry K) : Operation K → Prop
  | .build d _ => d ∈ r.definitions
  | _ => True

section

variable [Arithmetic K] [Numeral K]

/-- The nodes that an operation comes to. -/
def run (r : Registry K) : Operation K → Work K (List (Node K))
  | .make c => return [← r.make c]
  | .build d operands => return [← r.build d operands]
  | .lower n => return [← r.lower n]
  | .fold n => return [← r.fold n]
  | .substitute n bindings => return [← r.substitute n bindings]
  | .derivative n wrt => return [← r.derivative n wrt]
  | .backprop root leaves => do
      let gradients ← r.backprop root leaves
      return gradients.reached.toList.map fun entry => entry.2.2
  | .backpropFrom root leaves seed => do
      let gradients ← r.backpropFrom root leaves seed
      return gradients.reached.toList.map fun entry => entry.2.2

end

/-- What is known of the shapes that an operation comes to. -/
def Promise (r : Registry K) (op : Operation K) (made : List (Node K)) : Prop :=
  match op with
  | .make c => ∃ n, made = [n] ∧ r.Promises c n
  | .build d _ => ∃ n, made = [n] ∧ n.shape = d.signature.result
  | .lower e | .fold e | .substitute e _ | .derivative e _ => ∃ n, made = [n] ∧ n.shape = e.shape
  | .backprop _ _ | .backpropFrom _ _ _ => True

end Operation

/-! ## What an operation makes -/

/-- Nodes have been made over what is around: they are composed, and are around now. -/
structure Made (r : Registry K) (pool made : List (Node K)) (w : Workspace K) : Prop where
  composed : ∀ n ∈ made, n.Composed anyNode r
  stock : Stock Registry.anyName (made ++ pool) [] w.nextId

section

variable {r : Registry K} {nodes pool more : List (Node K)} {n m : Node K}

theorem Made.single {w : Workspace K} (composed : m.Composed anyNode r)
    (stock : Stock Registry.anyName more [] w.nextId) (below : Node.Below more m)
    (sub : pool ⊆ more) : Made r pool [m] w :=
  ⟨List.forall_mem_singleton.2 composed,
    (stock.cons_of_below below).of_subset (List.cons_subset_cons m sub)⟩

theorem Gathered.made {w : Workspace K} (h : Gathered anyNode r (m :: nodes) pool w.nextId) :
    Made r pool [m] w :=
  .single (h.composed m List.mem_cons_self) h.stock_append (.of_mem List.mem_cons_self)
    (List.subset_append_right (m :: nodes) pool)

/-- An operation that comes to a single node. -/
theorem returned {P : Node K → Prop} {before : Workspace K → Prop}
    {fault : Fault → Workspace K → Prop} {work : Work K (Node K)}
    (h : Triple before work (fun m w => P m ∧ Made r pool [m] w) fault) :
    Triple before (do return [← work])
      (fun made w => (∃ m, made = [m] ∧ P m) ∧ Made r pool made w) fault :=
  h.bind fun m => .value fun _ hm => ⟨⟨m, rfl, hm.1⟩, hm.2⟩

/-- A pass over a single node, where the memo may know something from the beginning. -/
theorem starting_made {visit : Node K → Pass K (Node K)} {memo : Memo K}
    (h : Lowers (alike anyNode r) Registry.anyName pool [] (Kept (alike anyNode r) pool) visit n)
    (below : Node.Below pool n) (known : ∀ w : Workspace K,
      Stock Registry.anyName pool [] w.nextId →
        Recalls (alike anyNode r) Registry.anyName pool [] (w, memo)) :
    Triple (fun w => Stock Registry.anyName pool [] w.nextId) (Work.starting memo (visit n))
      (fun m w => m.shape = n.shape ∧ Made r pool [m] w)
      fun _ w => Stock Registry.anyName pool [] w.nextId := by
  have visits := h pool (List.Subset.refl pool) (by rwa [List.append_nil])
  refine .starting (visits.weaken ?_ ?_ ?_)
  · intro s hs
    rcases s with ⟨w, start⟩
    rcases hs with ⟨stock, rfl⟩
    exact known w stock
  · intro m s hs
    rcases hs with ⟨more, sub, ⟨below, composed, shape⟩, recalls⟩
    exact ⟨shape, .single composed recalls.stock below sub⟩
  · intro _ s hs
    rcases hs with ⟨more, sub, recalls⟩
    exact recalls.stock.of_subset sub

/-- Replacements of the shapes of their leaves are known to a pass. -/
theorem recalls_bindings {bindings : List (Binding K)} {w : Workspace K}
    (stock : Stock Registry.anyName pool [] w.nextId)
    (around : ∀ b ∈ bindings, Node.Below pool b.leaf ∧ Node.Below pool b.replacement ∧
      b.replacement.Composed anyNode r)
    (shapes : ∀ b ∈ bindings, b.leaf.shape = b.replacement.shape) :
    Recalls (alike anyNode r) Registry.anyName pool [] (w, Registry.bindingMemo bindings) := by
  refine ⟨stock, fun id m found => ?_⟩
  rcases Registry.exists_binding found with ⟨b, hb, same, rfl⟩
  rcases around b hb with ⟨leaf, replacement, composed⟩
  refine ⟨b.leaf, same, ?_, replacement, composed, (shapes b hb).symm⟩
  rwa [List.append_nil]

variable (honest : ∀ d ∈ r.definitions, d.Honest nodes)
  (composed : ∀ n ∈ nodes, n.Composed anyNode r)

include honest composed

theorem make_made {c : Construction K} (below : ∀ n ∈ c.operands, Node.Below nodes n) :
    Triple (fun w => Gathered anyNode r nodes pool w.nextId) (r.make c)
      (fun n w => r.Promises c n ∧ Gathered anyNode r (n :: nodes) pool w.nextId)
      fun _ w => Gathered anyNode r nodes pool w.nextId := by
  have draws : c.Draws Registry.anyName nodes := by
    cases c with
    | constant | leaf => trivial
    | apply | applyFor => exact ⟨trivial, below⟩
  have makes : c.Makes anyNode := by
    cases c with
    | constant | leaf => exact fun _ => trivial
    | apply | applyFor => trivial
  have gathers := Registry.make_gathers (Registry.constructs_of_honest honest composed)
    (List.Subset.refl _) (List.Subset.refl nodes) makes draws pool
  exact (gathers.both (Registry.make_promises r c)).weaken (fun _ h => ⟨h, trivial⟩)
    (fun _ _ h => ⟨h.2, h.1⟩) fun _ _ h => h.1

variable [Arithmetic K] [Numeral K] (held : nodes ⊆ pool)

include held

theorem backpropFrom_made {e seed : Node K} (root : Node.Below pool e)
    (composedRoot : e.Composed anyNode r) (upstream : Node.Below pool seed)
    (composedSeed : seed.Composed anyNode r) (deps : List (Node K)) :
    Triple (fun w => Stock Registry.anyName pool [] w.nextId)
      (do
        let gradients ← r.backpropFrom e deps seed
        return gradients.reached.toList.map fun entry => entry.2.2)
      (Made r pool) fun _ w => Stock Registry.anyName pool [] w.nextId := by
  refine Triple.bind (m := fun gradients w =>
    Made r pool (gradients.reached.toList.map fun entry => entry.2.2) w) ?_ fun _ => .value fun _ => id
  intro w stock
  have streams := Registry.backpropFrom_streams
    (Registry.constructs_of_honest honest composed) held (Registry.routes_of_honest honest)
    root composedRoot upstream composedSeed deps w ⟨stock, .now w⟩
  refine streams.imp ?_ fun _ w' h => h.stock
  intro gradients w' h
  rcases h with ⟨more, pending, sub, streams⟩
  -- only what has reached leaves is handed out, and all of it is around after the sweep
  have gradient (g : Node K) (hg : g ∈ gradients.reached.toList.map fun entry => entry.2.2) :
      Node.Below more g ∧ g.Composed anyNode r := by
    rcases List.mem_map.1 hg with ⟨⟨id, leaf, _⟩, entry, rfl⟩
    have found := Std.HashMap.mem_toList_iff_getElem?_eq_some.1 entry
    have known := (streams.flow.reached id leaf _ found).2.2
    exact ⟨known.below, known.composed⟩
  refine ⟨fun g hg => (gradient g hg).2, ?_⟩
  have gathered : Gathered anyNode r _ more w'.nextId :=
    .of_stock streams.workspace.stock (fun g hg => (gradient g hg).1) fun g hg => (gradient g hg).2
  exact gathered.stock_append.of_subset
    (List.append_subset.2 ⟨List.subset_append_left _ _, List.subset_append_of_subset_right _ sub⟩)

/-- Operations keep their promises, and what they come to is composed.  When an operation is given up,
what was around still is. -/
theorem Operation.run_triple {op : Operation K} (allowed : op.Allowed r)
    (below : ∀ n ∈ op.operands, Node.Below nodes n) :
    Triple (fun w => Stock Registry.anyName pool [] w.nextId) (op.run r)
      (fun made w => op.Promise r made ∧ Made r pool made w)
      fun _ w => Stock Registry.anyName pool [] w.nextId := by
  have constructs := Registry.constructs_of_honest honest composed
  have gather (w : Workspace K) (stock : Stock Registry.anyName pool [] w.nextId) :
      Gathered anyNode r nodes pool w.nextId := .of_stock stock (fun n hn => .of_mem (held hn)) composed
  have around (n : Node K) (hn : n ∈ op.operands) : Node.Below pool n := (below n hn).mono held
  have typed (n : Node K) (hn : n ∈ op.operands) : n.Composed anyNode r :=
    Node.composed_of_below composed (below n hn)
  have fresh (w : Workspace K) (stock : Stock Registry.anyName pool [] w.nextId) :
      Recalls (alike anyNode r) Registry.anyName pool [] (w, ∅) := .empty stock
  cases op with
  | make c =>
      refine returned ((make_made honest composed below).weaken gather ?_ ?_)
      · exact fun n w h => ⟨h.1, h.2.made⟩
      · exact fun _ w h => h.stock_others
  | build d operands =>
      have built := Registry.build_gathers constructs (List.Subset.refl _) allowed
        (List.Subset.refl nodes) below pool
      refine returned (built.weaken gather ?_ ?_)
      · exact fun n w h => ⟨h.1, h.2.made⟩
      · exact fun _ w h => h.stock_others
  | lower n =>
      have hn : n ∈ (Operation.lower n).operands := List.mem_cons_self
      exact returned (starting_made (Registry.lowerNext_alike constructs held
        (Registry.expands_of_honest honest) (typed n hn)) (around n hn) fresh)
  | fold n =>
      have hn : n ∈ (Operation.fold n).operands := List.mem_cons_self
      exact returned (starting_made (Registry.foldNode_alike constructs held
        (fun _ _ _ _ _ => trivial) (typed n hn)) (around n hn) fresh)
  | substitute n bindings =>
      have hn : n ∈ (Operation.substitute n bindings).operands := List.mem_cons_self
      have bound (b : Binding K) (hb : b ∈ bindings) : Node.Below pool b.leaf ∧
          Node.Below pool b.replacement ∧ b.replacement.Composed anyNode r := by
        have leaf := List.mem_append_left (bindings.map (·.replacement))
          (List.mem_map_of_mem (f := fun b : Binding K => b.leaf) hb)
        have replacement := List.mem_append_right (bindings.map (·.leaf))
          (List.mem_map_of_mem (f := fun b : Binding K => b.replacement) hb)
        exact ⟨around _ (List.mem_cons_of_mem n leaf), around _ (List.mem_cons_of_mem n replacement),
          typed _ (List.mem_cons_of_mem n replacement)⟩
      refine returned (Triple.bind (m := fun _ w => (∀ b ∈ bindings,
        b.leaf.shape = b.replacement.shape) ∧ Stock Registry.anyName pool [] w.nextId)
        (.ofExcept (fun _ accepted w stock => ⟨Registry.shapes_of_checkBinding accepted, stock⟩)
          fun _ _ _ => id) fun _ => .assuming fun shapes => ?_)
      exact starting_made (Registry.substituteNode_alike constructs held (typed n hn)) (around n hn)
        fun w stock => recalls_bindings stock bound shapes
  | derivative n wrt =>
      have hn : n ∈ (Operation.derivative n wrt).operands := List.mem_cons_self
      have hwrt := below wrt (List.mem_cons_of_mem n List.mem_cons_self)
      refine returned (Triple.bind (m := fun _ w => Stock Registry.anyName pool [] w.nextId)
        (.ofExcept (fun _ _ _ => id) fun _ _ _ => id) fun _ => ?_)
      exact starting_made (Registry.deriveNext_alike constructs held
        (Registry.derives_of_honest honest hwrt) (typed n hn)) (around n hn) fresh
  | backprop root leaves =>
      have hroot : root ∈ (Operation.backprop root leaves).operands := List.mem_cons_self
      -- the seed is a constant that is made first, and is around during the sweep
      rw [Operation.run, Registry.backprop, bind_assoc]
      refine Triple.bind (m := fun seed w => seed.Composed anyNode r ∧
        Stock Registry.anyName (seed :: pool) [] w.nextId) ?_ fun seed => .assuming fun made => ?_
      · exact fun w stock =>
          ⟨Node.composed_of_plain rfl trivial, stock.cons_of_fresh rfl (by simp) nofun⟩
      · have wider := List.subset_cons_self seed pool
        refine (backpropFrom_made honest composed (List.Subset.trans held wider)
          ((around root hroot).mono wider) (typed root hroot) (.of_mem List.mem_cons_self) made
          leaves).weaken (fun _ => id) ?_ fun _ w stock => stock.of_subset wider
        intro ns w h
        refine ⟨trivial, h.composed, h.stock.of_subset ?_⟩
        exact List.append_subset.2
          ⟨List.subset_append_left _ _, List.subset_append_of_subset_right _ wider⟩
  | backpropFrom root leaves seed =>
      have hroot : root ∈ (Operation.backpropFrom root leaves seed).operands := List.mem_cons_self
      have hseed : seed ∈ (Operation.backpropFrom root leaves seed).operands :=
        List.mem_cons_of_mem root List.mem_cons_self
      exact (backpropFrom_made honest composed held (around root hroot) (typed root hroot)
        (around seed hseed) (typed seed hseed) leaves).relax fun made w h => ⟨trivial, h⟩

end

end SymbolicLinalg
