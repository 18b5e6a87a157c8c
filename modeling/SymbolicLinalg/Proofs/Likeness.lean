import SymbolicLinalg.Proofs.Composition
import SymbolicLinalg.Proofs.Traversal

/-!
# Likeness — passes come to composed nodes of the same shape

Every pass checks what a hook hands out before it is used.  Hence, whatever the hooks do, what a pass
makes of a composed node is a composed node of its shape.  Also when a pass is given up, what it has
remembered until then is right.

* `alike`: the composed nodes of the shape of a node, as a `FormRelation`;
* `lowerNext_alike`, `foldNode_alike`, `substituteNode_alike`, `deriveNext_alike`: the passes.
-/

namespace SymbolicLinalg

variable {K : Type} {atoms : Node K → Prop} {r : Registry K}
  {captured base around given drawn operands : List (Node K)} {n m wrt : Node K}

/-- Composed nodes of one shape. -/
def alike (atoms : Node K → Prop) (r : Registry K) : FormRelation K where
  holds given n m := Node.Below given m ∧ m.Composed atoms r ∧ m.shape = n.shape
  below h := h.1
  mono sub h := ⟨h.1.mono sub, h.2⟩
  self h := ⟨h.1, h.2.1, rfl⟩

theorem alike_self (below : Node.Below given n) (composed : n.Composed atoms r) :
    (alike atoms r).holds given n n :=
  ⟨below, composed, rfl⟩

/-- A plain node is its own form. -/
theorem alike_plain {fault : Fault → Workspace K × Memo K → Prop} (composed : n.Composed atoms r) :
    Lowers (alike atoms r) Registry.anyName base [] fault pure n := by
  intro given _ below
  rw [List.append_nil] at below
  exact .value fun s recalls => ⟨given, List.Subset.refl given, alike_self below composed, recalls⟩

theorem composed_of_forms {forms : List (Node K)}
    (h : List.Forall₂ ((alike atoms r).holds given) operands forms) :
    (∀ m ∈ forms, m.Composed atoms r) ∧ forms.map Node.shape = operands.map Node.shape := by
  induction h with
  | nil => exact ⟨fun m hm => absurd hm List.not_mem_nil, rfl⟩
  | cons first _ ih =>
      refine ⟨List.forall_mem_cons.2 ⟨first.2.1, ih.1⟩, ?_⟩
      rw [List.map_cons, List.map_cons, first.2.2, ih.2]

theorem forms_mono {F : FormRelation K} {forms more : List (Node K)}
    (h : List.Forall₂ (F.holds given) operands forms) (sub : given ⊆ more) :
    List.Forall₂ (F.holds more) operands forms :=
  h.imp fun _ _ => F.mono sub

/-! ## Work inside a pass -/

/-- What the pass has remembered when it was given up is right, and so is what was around. -/
abbrev Kept (F : FormRelation K) (base : List (Node K)) (_ : Fault) (s : Workspace K × Memo K) :
    Prop :=
  ∃ more, base ⊆ more ∧ Recalls F Registry.anyName more [] s

/-- Work on the workspace, which adds to the nodes that are drawn on. -/
theorem within_recalls {F : FormRelation K} {α : Type} {work : Work K α}
    {post : List (Node K) → α → Prop}
    (h : Triple (fun w => Gathered atoms r drawn around w.nextId) work
      (fun a w => ∃ now, drawn ⊆ now ∧ post now a ∧ Gathered atoms r now around w.nextId)
      fun _ w => Gathered atoms r drawn around w.nextId)
    (sub : base ⊆ around) (below : ∀ n ∈ drawn, Node.Below around n)
    (composed : ∀ n ∈ drawn, n.Composed atoms r) :
    Triple (Recalls F Registry.anyName around []) (Work.within work)
      (fun a s => ∃ now, (∀ n ∈ now, n.Composed atoms r) ∧ post now a ∧
        Recalls F Registry.anyName (now ++ around) [] s) (Kept F base) := by
  refine .within fun memo w recalls => ?_
  refine (h w (.of_stock recalls.stock below composed)).imp ?_ ?_
  · intro a w' hs
    rcases hs with ⟨now, _, ha, gathered⟩
    exact ⟨now, gathered.composed, ha,
      recalls.mono (List.subset_append_right now around) gathered.stock_append⟩
  · intro _ w' gathered
    exact ⟨around, sub, recalls.mono (List.Subset.refl around) gathered.stock_others⟩

/-- A node of some shape that has been made of given nodes. -/
abbrev Offers (atoms : Node K → Prop) (r : Registry K) (given others : List (Node K)) (t : Shape)
    (m : Node K) (w : Workspace K) : Prop :=
  ∃ now, given ⊆ now ∧ (Node.Below now m ∧ m.shape = t) ∧ Gathered atoms r now others w.nextId

theorem Offers.of_cons {t : Shape} {w : Workspace K}
    (h : m.shape = t ∧ Gathered atoms r (m :: drawn) around w.nextId) :
    Offers atoms r drawn around t m w :=
  ⟨m :: drawn, List.subset_cons_self m drawn, ⟨.of_mem List.mem_cons_self, h.1⟩, h.2⟩

/-- Work on the workspace, which comes to a node of the shape of another. -/
theorem within_alike {work : Work K (Node K)}
    (h : Triple (fun w => Gathered atoms r drawn around w.nextId) work
      (Offers atoms r drawn around n.shape) fun _ w => Gathered atoms r drawn around w.nextId)
    (sub : base ⊆ around) (below : ∀ n ∈ drawn, Node.Below around n)
    (composed : ∀ n ∈ drawn, n.Composed atoms r) :
    Triple (Recalls (alike atoms r) Registry.anyName around []) (Work.within work)
      (Finds (alike atoms r) Registry.anyName around [] n) (Kept (alike atoms r) base) := by
  refine (within_recalls h sub below composed).relax fun m s hs => ?_
  rcases hs with ⟨now, made, ⟨hm, shape⟩, recalls⟩
  refine ⟨_, List.subset_append_right now around, ⟨?_, ?_, shape⟩, recalls⟩
  · exact hm.mono (List.subset_append_left now around)
  · exact Node.composed_of_below made hm

namespace Registry

/-- A node that is made inside a pass. -/
theorem make_recalls {F : FormRelation K} (constructs : r.Constructs atoms captured)
    {c : Construction K} (held : captured ⊆ drawn) (sub : base ⊆ around) (makes : c.Makes atoms)
    (draws : c.Draws anyName drawn)
    (ready : ∀ n ∈ drawn, Node.Below around n ∧ n.Composed atoms r) :
    Triple (Recalls F anyName around []) (Work.within (r.make c))
      (fun n s => ∃ more, around ⊆ more ∧ (Node.Below more n ∧ n.Composed atoms r) ∧
        Recalls F anyName more [] s) (Kept F base) := by
  have made : Triple (fun w => Gathered atoms r drawn around w.nextId) (r.make c)
      (fun n w => ∃ now, drawn ⊆ now ∧ n ∈ now ∧ Gathered atoms r now around w.nextId)
      fun _ w => Gathered atoms r drawn around w.nextId :=
    (make_gathers constructs (List.Subset.refl _) held makes draws around).relax fun n _ gathered =>
      ⟨n :: drawn, List.subset_cons_self n drawn, List.mem_cons_self, gathered⟩
  refine (within_recalls made sub (fun n hn => (ready n hn).1)
    fun n hn => (ready n hn).2).relax fun n s hs => ?_
  rcases hs with ⟨now, composed, hn, recalls⟩
  exact ⟨_, List.subset_append_right now around,
    ⟨.of_mem (List.mem_append_left around hn), composed n hn⟩, recalls⟩

end Registry

/-! ## Lowering -/

namespace Registry

/-- Hooks that lower an operator draw on the operands and make atoms. -/
structure Expands (atoms : Node K → Prop) (captured : List (Node K)) (r : Registry K) : Prop where
  expand {s : Signature} {rule : List (Node K) → Rule K (Option (Node K))} :
    (r.hooks s).expand = some rule → ∀ {operands given : List (Node K)}, captured ⊆ given →
      (∀ m ∈ operands, Node.Below given m) →
        (rule operands).Yields atoms given fun now n? => ∀ n ∈ n?, Node.Below now n
  replace {s : Signature} {rule : List (Node K) → Rule K (Node K)} :
    (r.hooks s).replace = some rule → ∀ {operands given : List (Node K)}, captured ⊆ given →
      (∀ m ∈ operands, Node.Below given m) → (rule operands).Yields atoms given Node.Below

theorem expansion?_gathers (constructs : r.Constructs atoms captured)
    (expands : r.Expands atoms captured) (held : captured ⊆ given)
    (below : ∀ m ∈ operands, Node.Below given m) (s : Signature) (others : List (Node K)) :
    Triple (fun w => Gathered atoms r given others w.nextId) (r.expansion? s operands)
      (fun found w => ∃ now, given ⊆ now ∧ (∀ p ∈ found, Node.Below now p.2) ∧
        Gathered atoms r now others w.nextId)
      fun _ w => Gathered atoms r given others w.nextId := by
  rw [expansion?]
  cases replaces : (r.hooks s).replace with
  | some replace =>
      have yields := expands.replace replaces held below
      refine (follow_gathers constructs yields held others).bind fun n => .value ?_
      intro w hs
      rcases hs with ⟨now, sub, hn, gathered⟩
      refine ⟨now, sub, fun p hp => ?_, gathered⟩
      rwa [← Option.some.inj hp]
  | none =>
      cases expanding : (r.hooks s).expand with
      | some expand =>
          have yields := expands.expand expanding held below
          refine (follow_gathers constructs yields held others).bind fun n? => .value ?_
          intro w hs
          rcases hs with ⟨now, sub, offered, gathered⟩
          refine ⟨now, sub, fun p hp => ?_, gathered⟩
          rcases Option.map_eq_some_iff.1 hp with ⟨n, hn, rfl⟩
          exact offered n hn
      | none =>
          refine .value fun w gathered => ⟨given, List.Subset.refl given, ?_, gathered⟩
          exact fun p hp => absurd hp (Option.not_mem_none p)

theorem checkedExpansion?_gathers (constructs : r.Constructs atoms captured)
    (expands : r.Expands atoms captured) (held : captured ⊆ given)
    (below : ∀ m ∈ operands, Node.Below given m) (s : Signature) (others : List (Node K)) :
    Triple (fun w => Gathered atoms r given others w.nextId) (r.checkedExpansion? s operands)
      (fun n? w => ∃ now, given ⊆ now ∧ (∀ n ∈ n?, Node.Below now n ∧ n.shape = s.result) ∧
        Gathered atoms r now others w.nextId)
      fun _ w => Gathered atoms r given others w.nextId := by
  rw [checkedExpansion?]
  refine (expansion?_gathers constructs expands held below s others).bind fun found => ?_
  cases found with
  | none =>
      refine .value fun w hs => ?_
      rcases hs with ⟨now, sub, _, gathered⟩
      exact ⟨now, sub, fun n hn => absurd hn (Option.not_mem_none n), gathered⟩
  | some p =>
      rcases p with ⟨hook, n⟩
      dsimp only
      split
      · refine .refuse fun w hs => ?_
        rcases hs with ⟨now, sub, _, gathered⟩
        exact gathered.of_subset sub
      · rename_i shape
        intro w hs
        rcases hs with ⟨now, sub, offered, gathered⟩
        refine ⟨now, sub, fun m hm => ?_, gathered⟩
        rw [← Option.some.inj hm]
        exact ⟨offered _ rfl, not_not.1 shape⟩

variable (constructs : r.Constructs atoms captured) (held : captured ⊆ base)

include constructs held

/-- What has been made of operands may be drawn on, with what the hooks have captured. -/
theorem drawable {forms : List (Node K)} (sub : base ⊆ around)
    (h : List.Forall₂ ((alike atoms r).holds around) operands forms) :
    (∀ n ∈ captured ++ forms, Node.Below around n) ∧
      ∀ n ∈ captured ++ forms, n.Composed atoms r :=
  ⟨List.forall_mem_append.2 ⟨fun _ hn => .of_mem (sub (held hn)), FormRelation.forall_below h⟩,
    List.forall_mem_append.2 ⟨constructs.composed, (composed_of_forms h).1⟩⟩

theorem lowerWith_alike (expands : r.Expands atoms captured) {again : Node K → Pass K (Node K)}
    (others : ∀ n, n.Composed atoms r →
      Lowers (alike atoms r) anyName base [] (Kept (alike atoms r) base) again n)
    (composed : n.Composed atoms r) :
    Lowers (alike atoms r) anyName base [] (Kept (alike atoms r) base) (r.lowerWith again) n := by
  refine lowerWith_triple (P := Node.Composed atoms r)
    (fun n h m hm => h.of_reaches (.of_mem_operands hm)) (fun n h _ => alike_plain h) ?_ composed
  intro id s operands lowered around h sub below forms
  rw [List.append_nil] at below
  rcases h.applied id s operands (.refl _) with ⟨known, shapes⟩
  have drawable := drawable constructs held sub forms
  have expanded := checkedExpansion?_gathers constructs expands
    (List.subset_append_left captured lowered)
    (fun m hm => .of_mem (List.mem_append_right captured hm)) s around
  rw [rewrite]
  refine (within_recalls expanded sub drawable.1 drawable.2).bind fun n? => ?_
  refine .of_exists fun now => .assuming fun made => .assuming fun offered => ?_
  have after := List.subset_append_right now around
  cases n? with
  | some n =>
      -- the expansion is lowered in its turn
      rcases offered n rfl with ⟨hn, shape⟩
      refine (others n (Node.composed_of_below made hn) (now ++ around)
        (List.Subset.trans sub after) ?_).relax ?_
      · rw [List.append_nil]
        exact hn.mono (List.subset_append_left now around)
      · intro m s' hs
        rcases hs with ⟨more, sub', ⟨below, composed, same⟩, recalls⟩
        exact ⟨more, List.Subset.trans after sub', ⟨below, composed, same.trans shape⟩, recalls⟩
  | none =>
      -- the operator stays, over the same operands or over what they were lowered to
      refine (keeping_triple (forms_mono forms after) ?_ trivial ?_ ?_).relax ?_
      · rw [List.append_nil]
        exact below.mono after
      · exact fun _ more below => alike_self below h
      · intro _ i more below
        refine ⟨below, Node.composed_application known ?_ (composed_of_forms forms).1, rfl⟩
        exact (composed_of_forms forms).2.trans shapes
      · intro m s' hs
        rcases hs with ⟨more, sub', form, recalls⟩
        exact ⟨more, List.Subset.trans after sub', form, recalls⟩

/-- A lowering pass comes to composed nodes of the shapes of its nodes. -/
theorem lowerNext_alike (expands : r.Expands atoms captured) (composed : n.Composed atoms r) :
    Lowers (alike atoms r) anyName base [] (Kept (alike atoms r) base) r.lowerNext n :=
  lowerNext_triple (fun _ nested _ => lowerWith_alike constructs held expands nested)
    (fun given _ sub recalls => ⟨given, sub, recalls⟩) composed

end Registry

/-! ## Folding and substitution -/

namespace Registry

/-- Hooks that compute constants make atoms. -/
def Folds (atoms : Node K → Prop) (r : Registry K) : Prop :=
  ∀ s rule, (r.hooks s).fold = some rule → ∀ values id, atoms (.constant id (rule values))

theorem foldApplication_gathers (constructs : r.Constructs atoms captured) (folds : r.Folds atoms)
    {s : Signature} (known : r.Knows s) (held : captured ⊆ given) {folded : List (Node K)}
    (below : ∀ m ∈ folded, Node.Below given m) {kept : Node K} (same : Node.Below given kept)
    (shape : kept.shape = s.result) (operands others : List (Node K)) :
    Triple (fun w => Gathered atoms r given others w.nextId)
      (r.foldApplication s operands folded kept) (Offers atoms r given others s.result)
      fun _ w => Gathered atoms r given others w.nextId := by
  rw [foldApplication]
  split
  · rename_i fold values hook _
    dsimp only
    split
    · exact .refuse fun _ gathered => gathered
    · rename_i fits
      intro w gathered
      have atom := folds s fold hook values w.nextId
      exact Offers.of_cons ⟨not_not.1 fits, gathered.cons_of_constant atom⟩
  · split
    · exact .value fun w gathered => ⟨given, List.Subset.refl given, ⟨same, shape⟩, gathered⟩
    · exact (rebuild_gathers constructs (List.Subset.refl _) known held below others).relax
        fun _ _ => Offers.of_cons

variable (constructs : r.Constructs atoms captured) (held : captured ⊆ base)

include constructs held

theorem foldNode_alike (folds : r.Folds atoms) (composed : n.Composed atoms r) :
    Lowers (alike atoms r) anyName base [] (Kept (alike atoms r) base) r.foldNode n := by
  refine foldNode_triple (P := Node.Composed atoms r)
    (fun n h m hm => h.of_reaches (.of_mem_operands hm)) (fun n h _ => alike_plain h) ?_ composed
  intro id s operands folded around h sub below forms
  rw [List.append_nil] at below
  have drawable := drawable constructs held sub forms
  have drawn (m : Node K) (hm : m ∈ captured ++ folded) :
      Node.Below (.application id s operands :: (captured ++ folded)) m :=
    .of_mem (List.mem_cons_of_mem _ hm)
  have result := foldApplication_gathers constructs folds (h.applied id s operands (.refl _)).1
    (List.subset_cons_of_subset _ (List.subset_append_left captured folded))
    (fun m hm => drawn m (List.mem_append_right captured hm)) (.of_mem List.mem_cons_self) rfl
    operands around
  exact within_alike result sub (List.forall_mem_cons.2 ⟨below, drawable.1⟩)
    (List.forall_mem_cons.2 ⟨h, drawable.2⟩)

theorem substituteNode_alike (composed : n.Composed atoms r) :
    Lowers (alike atoms r) anyName base [] (Kept (alike atoms r) base) r.substituteNode n := by
  refine substituteNode_triple (P := Node.Composed atoms r)
    (fun n h m hm => h.of_reaches (.of_mem_operands hm)) (fun n h _ => alike_plain h) ?_ composed
  intro id s operands replaced around h sub below forms
  rw [List.append_nil] at below
  rw [refit]
  split
  · exact .value fun s recalls => ⟨around, List.Subset.refl around, alike_self below h, recalls⟩
  · have drawable := drawable constructs held sub forms
    have rebuilt := rebuild_gathers constructs (List.Subset.refl _)
      (h.applied id s operands (.refl _)).1
      (List.subset_append_left captured replaced)
      (fun m hm => .of_mem (List.mem_append_right captured hm)) around
    exact within_alike (rebuilt.relax fun _ _ => Offers.of_cons) sub drawable.1 drawable.2

end Registry

/-! ## Derivatives -/

namespace Registry

/-- Hooks that differentiate by a variable draw on the operands and make atoms, among which are the
derivatives of constants and leaves. -/
structure Derives [Arithmetic K] (atoms : Node K → Prop) (captured : List (Node K)) (r : Registry K)
    (wrt : Node K) : Prop where
  deriv {s : Signature} {rule : Node K → List (Node K) → Recipe K (Node K) (Node K) (Node K)} :
    (r.hooks s).deriv = some rule → ∀ {operands given : List (Node K)}, captured ⊆ given →
      (∀ m ∈ operands, Node.Below given m) → (rule wrt operands).Yields atoms given Node.Below
  zero (s : Shape) (id : NodeId) : atoms (.constant id (.zero s))
  one (s : Shape) (id : NodeId) : atoms (.constant id (.one s))

theorem newConstant_alike {v : Literal K} (atom : ∀ id, atoms (.constant id v))
    (shape : v.shape = n.shape) (sub : base ⊆ around) :
    Triple (Recalls (alike atoms r) anyName around []) (Work.within (Node.newConstant v))
      (Finds (alike atoms r) anyName around [] n) (Kept (alike atoms r) base) := by
  have made : Triple (fun w => Gathered atoms r [] around w.nextId) (Node.newConstant v)
      (Offers atoms r [] around n.shape) fun _ w => Gathered atoms r [] around w.nextId :=
    fun w gathered => Offers.of_cons ⟨shape, gathered.cons_of_constant (atom w.nextId)⟩
  exact within_alike made sub (fun m hm => absurd hm List.not_mem_nil)
    fun m hm => absurd hm List.not_mem_nil

variable [Arithmetic K] (constructs : r.Constructs atoms captured) (held : captured ⊆ base)

include constructs held

theorem differentiate_alike (derives : r.Derives atoms captured wrt) {id : NodeId} {s : Signature}
    (composed : (Node.application id s operands).Composed atoms r)
    {answer : Node K → Pass K (Node K)}
    (sub : base ⊆ around) (answers : ∀ k more, around ⊆ more → Node.Below more k →
      k.Composed atoms r → Triple (Recalls (alike atoms r) anyName more []) (answer k)
        (fun m s => ∃ later, more ⊆ later ∧ (Node.Below later m ∧ m.Composed atoms r) ∧
          Recalls (alike atoms r) anyName later [] s) (Kept (alike atoms r) base))
    (below : Node.Below around (.application id s operands)) :
    Triple (Recalls (alike atoms r) anyName around []) (r.differentiate wrt id s operands answer)
      (Finds (alike atoms r) anyName around [] (.application id s operands))
      (Kept (alike atoms r) base) := by
  have refuses (e : Error) (more : List (Node K)) (grown : around ⊆ more) (α : Type)
      (post : α → Workspace K × Memo K → Prop) :
      Triple (Recalls (alike atoms r) anyName more []) (Work.within (Work.refuse e)) post
        (Kept (alike atoms r) base) :=
    .within fun _ => .refuse fun _ recalls => ⟨more, List.Subset.trans sub grown, recalls⟩
  rw [differentiate]
  cases hook : (r.hooks s).deriv with
  | none => exact refuses _ around (List.Subset.refl around) _ _
  | some deriv =>
      -- the hook has the operands and what it has captured; derivatives it asks for come on top
      have yields : (deriv wrt operands).Yields atoms (captured ++ operands) Node.Below :=
        derives.deriv hook (List.subset_append_left captured operands)
          fun m hm => .of_mem (List.mem_append_right captured hm)
      refine Triple.bind (m := fun _ => Recalls (alike atoms r) anyName around [])
        (.within fun _ => .record fun _ recalls => ⟨recalls.stock, recalls.memo⟩) fun _ => ?_
      have ready : ∀ n ∈ captured ++ operands, Node.Below around n ∧ n.Composed atoms r :=
        List.forall_mem_append.2
          ⟨fun n hn => ⟨.of_mem (sub (held hn)), constructs.composed n hn⟩, fun n hn =>
            ⟨below.of_reaches (.of_mem_operands hn), composed.of_reaches (.of_mem_operands hn)⟩⟩
      refine (yields.keeps_run (fun c given more held' grown makes drawn ready =>
        make_recalls constructs held' (List.Subset.trans sub grown) makes drawn ready)
        (fun k more grown ready => ?_) (fun e more grown => refuses e more grown _ _)
        (List.subset_append_left captured operands) (List.Subset.refl around) ready).bind fun m => ?_
      · have shown := ready k List.mem_cons_self
        refine (answers k more grown shown.1 shown.2).relax fun m s hs => ?_
        rcases hs with ⟨later, grown', hm, recalls⟩
        exact ⟨later, grown', List.forall_mem_singleton.2 hm, recalls⟩
      · refine .of_exists fun now => .of_exists fun more => .assuming fun grown => ?_
        refine .assuming fun atHand => .assuming fun hm => ?_
        split
        · exact refuses _ more grown _ _
        · rename_i shape
          refine .value fun s' recalls => ⟨more, grown, ⟨?_, ?_, not_not.1 shape⟩, recalls⟩
          · exact hm.trans fun n hn => (atHand n hn).1
          · exact Node.composed_of_below (fun n hn => (atHand n hn).2) hm

theorem deriveWith_alike (derives : r.Derives atoms captured wrt)
    {again : Node K → Pass K (Node K)}
    (others : ∀ n, n.Composed atoms r →
      Lowers (alike atoms r) anyName base [] (Kept (alike atoms r) base) again n)
    (composed : n.Composed atoms r) :
    Lowers (alike atoms r) anyName base [] (Kept (alike atoms r) base)
      (r.deriveWith wrt again) n := by
  intro around sub below
  -- every node is looked up first, and its derivative remembered afterwards
  have derived {n : Node K} {around : List (Node K)} {compute : Pass K (Node K)}
      (below : Node.Below (around ++ []) n)
      (computes : Triple (Recalls (alike atoms r) anyName around []) compute
        (Finds (alike atoms r) anyName around [] n) (Kept (alike atoms r) base)) :=
    knowing below (computes.bind fun m => remembering below)
  induction n using Node.induct generalizing around with
  | constant id v =>
      rw [deriveWith]
      exact derived below (newConstant_alike (derives.zero v.shape) rfl sub)
  | leaf id name s =>
      rw [deriveWith]
      refine derived below (newConstant_alike (fun i => ?_) ?_ sub)
      · split
        · exact derives.one s i
        · exact derives.zero s i
      · split <;> rfl
  | application id s operands ih =>
      rw [deriveWith]
      rw [List.append_nil] at below
      refine derived (by rwa [List.append_nil])
        (differentiate_alike constructs held derives composed sub ?_ below)
      intro k more grown hk shown
      -- of an answer it only matters that it is composed and around
      have known (m n : Node K) (s : Workspace K × Memo K)
          (h : Finds (alike atoms r) anyName more [] m n s) : ∃ later, more ⊆ later ∧
            (Node.Below later n ∧ n.Composed atoms r) ∧ Recalls (alike atoms r) anyName later [] s := by
        rcases h with ⟨later, grown', form, recalls⟩
        exact ⟨later, grown', ⟨form.1, form.2.1⟩, recalls⟩
      -- an operand is covered by the induction; any other node is left to `again`
      rcases answerDerivative_cases r wrt again operands k with ⟨m, hm, same⟩ | same
      · rw [same]
        refine (ih m hm (composed.of_reaches (.of_mem_operands hm)) more
          (List.Subset.trans sub grown) ?_).relax (known m)
        rw [List.append_nil]
        exact (below.of_reaches (.of_mem_operands hm)).mono grown
      · rw [same]
        refine (others k shown more (List.Subset.trans sub grown) ?_).relax (known k)
        rwa [List.append_nil]

/-- A differentiating pass comes to composed nodes of the shapes of its nodes. -/
theorem deriveNext_alike (derives : r.Derives atoms captured wrt) (composed : n.Composed atoms r) :
    Lowers (alike atoms r) anyName base [] (Kept (alike atoms r) base) (r.deriveNext wrt) n := by
  have levels (depth : Nat) : ∀ n : Node K, n.Composed atoms r →
      Lowers (alike atoms r) anyName base [] (Kept (alike atoms r) base)
        (r.deriveWithin wrt depth) n := by
    induction depth with
    | zero => exact fun _ _ given sub _ => .giveUp fun _ recalls => ⟨given, sub, recalls⟩
    | succ depth ih => exact fun n h => deriveWith_alike constructs held derives ih h
  exact levels nestingLimit n composed

end Registry

end SymbolicLinalg
