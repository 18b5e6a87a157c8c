import SymbolicLinalg.Proofs.Lowered

/-!
# NormalForm — lowering to a fixed point

An expression is in normal form if no hook rewrites any application in it.  A rewrite is lowered in
its turn and a node that survives is made without simplification, so what lowering comes to is in
normal form, whatever the operators of the registry are; and an expression in normal form is its own
lowered form.  Every form that the pass remembers is in normal form, so it stays a form of itself.

The hooks may build what they like over their operands and over nodes that they have captured.  The
identities of new nodes are not theirs to choose; whether an expansion is declined must not depend on
them.

* `Registry.Normal`: the normal form;
* `Registry.Functional`: what is assumed of the hooks;
* `lower_normalizes`: lowering comes to a normal form and does not change one.
-/

namespace SymbolicLinalg

variable {K : Type}

namespace Registry

/-- Neither hook rewrites the application: there is nothing that replaces it, and what may expand it
declines. -/
def Keeps (r : Registry K) (s : Signature) (operands : List (Node K)) : Prop :=
  (r.hooks s).replace = none ∧ ∀ expand, (r.hooks s).expand = some expand →
    ∀ w, ((follow r.make (expand operands)).runIn w).1 = .ok none

/-- Every application in the graph is kept. -/
def Normal (r : Registry K) (n : Node K) : Prop :=
  ∀ id s operands, n.Reaches (.application id s operands) → r.Keeps s operands

/-- The hooks that lower an operator are functions of the operands: they draw on the operands and on
captured nodes, and an expansion that is declined in one workspace is declined in all. -/
structure Functional (captured : List (Node K)) (r : Registry K) : Prop where
  optimize : r.Draws anyName captured
  replace {s : Signature} {rule : List (Node K) → Rule K (Node K)} :
    (r.hooks s).replace = some rule → ∀ {operands given : List (Node K)}, captured ⊆ given →
      (∀ m ∈ operands, Node.Below given m) → (rule operands).Draws anyName given Node.Below
  expand {s : Signature} {rule : List (Node K) → Rule K (Option (Node K))} :
    (r.hooks s).expand = some rule → ∀ {operands given : List (Node K)}, captured ⊆ given →
      (∀ m ∈ operands, Node.Below given m) →
        (rule operands).Draws anyName given fun now n? => ∀ n ∈ n?, Node.Below now n
  declines {s : Signature} {rule : List (Node K) → Rule K (Option (Node K))} :
    (r.hooks s).expand = some rule → ∀ {operands : List (Node K)} {w : Workspace K},
      ((follow r.make (rule operands)).runIn w).1 = .ok none →
        ∀ now, ((follow r.make (rule operands)).runIn now).1 = .ok none

variable {r : Registry K} {n m : Node K} {id : NodeId} {s : Signature} {operands : List (Node K)}

theorem Normal.of_reaches (h : r.Normal n) (below : n.Reaches m) : r.Normal m :=
  fun id s operands hm => h id s operands (below.trans hm)

theorem normal_of_plain (plain : n.isApplication = false) : r.Normal n := by
  intro id s operands below
  cases n with
  | constant | leaf => exact absurd (below.eq_of_operands_eq_nil rfl) nofun
  | application => exact absurd plain nofun

theorem normal_application :
    r.Normal (.application id s operands) ↔ r.Keeps s operands ∧ ∀ m ∈ operands, r.Normal m := by
  constructor
  · intro h
    exact ⟨h id s operands (.refl _), fun m hm => h.of_reaches (.of_mem_operands hm)⟩
  · rintro ⟨kept, normal⟩ i t ns below
    rcases Node.reaches_iff.1 below with same | ⟨m, hm, below⟩
    · obtain ⟨-, rfl, rfl⟩ := Node.application.inj same
      exact kept
    · exact normal m hm i t ns below

end Registry

/-! ## Rewrites -/

section

variable {r : Registry K} {captured given others operands : List (Node K)} {s : Signature}

/-- What work comes to is what it comes to in some state. -/
theorem Triple.traced {S α : Type} {work : ExceptT Fault (StateM S) α} :
    Triple (fun _ => True) work (fun a _ => ∃ s, (work.run.run s).1 = .ok a) fun _ _ => True := by
  intro s _
  rcases outcome : work.run.run s with ⟨_ | a, s'⟩
  · trivial
  · exact ⟨s, by rw [outcome]⟩

/-- What the hooks make of an application: nothing, if it is kept, and else a node of its shape. -/
def Rewritten (r : Registry K) (s : Signature) (operands given others : List (Node K))
    (next : NodeId) : Option (Node K) → Prop
  | none => r.Keeps s operands ∧ Stock Registry.anyName given others next
  | some n => ¬ r.Keeps s operands ∧ n.shape = s.result ∧
      Stock Registry.anyName (n :: given) others next

theorem expansion?_rewrites (functional : r.Functional captured) (held : captured ⊆ given)
    (below : ∀ m ∈ operands, Node.Below given m) :
    Triple (fun w => Stock Registry.anyName given others w.nextId) (r.expansion? s operands)
      (fun answer w => match answer with
        | none => r.Keeps s operands ∧ Stock Registry.anyName given others w.nextId
        | some (_, n) => ¬ r.Keeps s operands ∧ Stock Registry.anyName (n :: given) others w.nextId)
      fun _ w => Stock Registry.anyName given others w.nextId := by
  have grows := Registry.make_grows functional.optimize
  rw [Registry.expansion?]
  cases replaces : (r.hooks s).replace with
  | some rule =>
      refine ((functional.replace replaces held below).triple others grows held).bind fun n => ?_
      intro w hs
      rcases hs with ⟨now, sub, drawn, stock⟩
      refine ⟨fun kept => ?_, ?_⟩
      · exact absurd (replaces.symm.trans kept.1) (Option.some_ne_none rule)
      · exact (stock.cons_of_below drawn).of_subset (List.cons_subset_cons n sub)
  | none =>
      cases expands : (r.hooks s).expand with
      | none => exact .value fun w stock => ⟨⟨replaces, by simp [expands]⟩, stock⟩
      | some rule =>
          have drawn := (functional.expand expands held below).triple others grows held
          refine (Triple.traced.both drawn).weaken (fun w stock => ⟨trivial, stock⟩)
            (fun _ _ h => h) (fun _ _ h => h.2) |>.bind fun n? => ?_
          intro w hs
          rcases hs with ⟨⟨past, answered⟩, now, sub, drawn, stock⟩
          cases n? with
          | none =>
              refine ⟨⟨replaces, fun other same => ?_⟩, stock.of_subset sub⟩
              obtain rfl := Option.some.inj (expands.symm.trans same)
              exact functional.declines expands answered
          | some n =>
              refine ⟨fun kept => ?_, ?_⟩
              · have declined := answered.symm.trans (kept.2 rule expands past)
                exact absurd (Except.ok.inj declined) (Option.some_ne_none n)
              · exact (stock.cons_of_below (drawn n rfl)).of_subset (List.cons_subset_cons n sub)

theorem checkedExpansion?_rewrites (functional : r.Functional captured) (held : captured ⊆ given)
    (below : ∀ m ∈ operands, Node.Below given m) :
    Triple (fun w => Stock Registry.anyName given others w.nextId) (r.checkedExpansion? s operands)
      (fun n? w => Rewritten r s operands given others w.nextId n?)
      fun _ w => Stock Registry.anyName given others w.nextId := by
  rw [Registry.checkedExpansion?]
  refine (expansion?_rewrites functional held below).bind fun answer => ?_
  rcases answer with _ | ⟨hook, n⟩
  · exact .value fun w kept => kept
  · dsimp only
    split
    · exact .refuse fun w hs => hs.2.of_subset (List.subset_cons_self n given)
    · rename_i fits
      exact fun w hs => ⟨hs.1, not_not.1 fits, hs.2⟩

/-- Where an application is kept, asking the hooks is never given up. -/
theorem checkedExpansion?_keeps (functional : r.Functional captured) (held : captured ⊆ given)
    (below : ∀ m ∈ operands, Node.Below given m) (kept : r.Keeps s operands) :
    Triple (fun w => Stock Registry.anyName given others w.nextId) (r.checkedExpansion? s operands)
      (fun n? w => Rewritten r s operands given others w.nextId n?) never := by
  have answers : Triple (fun _ => True) (r.checkedExpansion? s operands) (fun _ _ => True)
      never := by
    rw [Registry.checkedExpansion?, Registry.expansion?, kept.1]
    cases expands : (r.hooks s).expand with
    | none => exact fun w _ => trivial
    | some rule =>
        refine Triple.bind (m := fun answer _ => answer = none) ?_ fun answer => ?_
        · refine Triple.bind (m := fun n? _ => n? = none) ?_ ?_
          · intro w _
            have declined := kept.2 rule expands w
            rw [Work.runIn] at declined
            revert declined
            rcases (Registry.follow r.make (rule operands)).run.run w with ⟨outcome, w'⟩
            rintro rfl
            rfl
          · rintro n?
            exact .value fun _ same => same ▸ rfl
        · rintro w rfl
          trivial
  intro w stock
  have both := answers.both (checkedExpansion?_rewrites functional held below) w ⟨trivial, stock⟩
  exact both.imp (fun _ _ h => h.2) fun _ _ h => h.1

end

/-! ## The invariant -/

/-- A lowered form is in normal form, and what is in normal form is its own lowered form. -/
structure NormalFormOf (r : Registry K) (given : List (Node K)) (n m : Node K) : Prop where
  below : Node.Below given m
  shape : m.shape = n.shape
  normal : r.Normal m
  kept : r.Normal n → m = n

def normalForm (r : Registry K) : FormRelation K where
  holds := NormalFormOf r
  below h := h.below
  mono sub h := { h with below := h.below.mono sub }
  self h := ⟨h.below, rfl, h.normal, fun _ => rfl⟩

variable {r : Registry K} {captured given others operands lowered : List (Node K)} {n : Node K}
  {id : NodeId} {s : Signature}

theorem normal_lowered (h : List.Forall₂ (NormalFormOf r given) operands lowered) :
    ∀ m ∈ lowered, r.Normal m := by
  induction h with
  | nil => exact fun m hm => absurd hm List.not_mem_nil
  | cons first _ ih => exact List.forall_mem_cons.2 ⟨first.normal, ih⟩

theorem lowered_eq (h : List.Forall₂ (NormalFormOf r given) operands lowered)
    (normal : ∀ n ∈ operands, r.Normal n) : lowered = operands := by
  induction h with
  | nil => rfl
  | cons first _ ih =>
      rw [List.forall_mem_cons] at normal
      rw [first.kept normal.1, ih normal.2]

/-! ## The pass -/

/-- What is remembered when the pass is given up. -/
abbrev Interrupted (r : Registry K) (captured others : List (Node K)) (_ : Fault)
    (s : Workspace K × Memo K) : Prop :=
  ∃ given, captured ⊆ given ∧ Recalls (normalForm r) Registry.anyName given others s

/-- An application that the hooks rewrite comes to the normal form of what they answer; any other is
in normal form over operands in normal form. -/
theorem rewrite_normalizes {fault : Fault → Workspace K × Memo K → Prop}
    {again : Node K → Pass K (Node K)}
    (forms : List.Forall₂ (NormalFormOf r given) operands lowered)
    (below : Node.Below (given ++ others) (.application id s operands)) (held : captured ⊆ given)
    (asked : ∀ memo, Triple
      (fun w => Recalls (normalForm r) Registry.anyName given others (w, memo))
      (r.checkedExpansion? s lowered)
      (fun n? w => Rewritten r s lowered given others w.nextId n?) fun f w => fault f (w, memo))
    (nested : ¬ r.Keeps s lowered → ∀ k,
      Lowers (normalForm r) Registry.anyName captured others fault again k) :
    Triple (Recalls (normalForm r) Registry.anyName given others)
      (r.rewrite again id s operands lowered)
      (fun m s' => ∃ more, given ⊆ more ∧ NormalFormOf r more (.application id s operands) m ∧
        Recalls (normalForm r) Registry.anyName more others s') fault := by
  -- an application in normal form is over itself lowered operands, and kept
  have fixed (normal : r.Normal (.application id s operands)) :
      lowered = operands ∧ r.Keeps s lowered := by
    rcases Registry.normal_application.1 normal with ⟨kept, normal⟩
    have same := lowered_eq forms normal
    exact ⟨same, same ▸ kept⟩
  let answer (n? : Option (Node K)) : Prop :=
    (n? = none ↔ r.Keeps s lowered) ∧ ∀ n ∈ n?, n.shape = s.result
  refine rewrite_triple (F := normalForm r) answer forms below held
    (fun memo => (asked memo).relax ?_) (fun _ => trivial) ?_ ?_ ?_
  · intro n? w rewritten
    cases n? with
    | none => exact ⟨⟨iff_of_true rfl rewritten.1, Standard.offered_none⟩, rewritten.2⟩
    | some n =>
        rcases rewritten with ⟨high, shape, stock⟩
        exact ⟨⟨iff_of_false (Option.some_ne_none n) high, Standard.offered_some shape⟩, stock⟩
  · rintro ⟨kept, _⟩ i more same here
    refine ⟨here, rfl, Registry.normal_application.2 ⟨kept.1 rfl, normal_lowered forms⟩, ?_⟩
    intro normal
    obtain rfl := (fixed normal).1
    rw [same rfl]
  · exact fun n ⟨high, _⟩ => nested (fun kept => Option.some_ne_none n (high.2 kept)) n
  · rintro n m more ⟨high, shape⟩ form
    refine ⟨form.below, form.shape.trans (shape n rfl), form.normal, fun normal => ?_⟩
    exact absurd (high.2 (fixed normal).2) (Option.some_ne_none n)

/-- Whatever is no application is its own lowered form. -/
theorem lowers_plain {fault : Fault → Workspace K × Memo K → Prop}
    (plain : n.isApplication = false) :
    Lowers (normalForm r) Registry.anyName captured others fault pure n :=
  lowers_itself (Node.appliesOnly_of_plain plain) fun _ here =>
    ⟨here, rfl, Registry.normal_of_plain plain, fun _ => rfl⟩

/-- Lowering an expression comes to its normal form, however deeply expansions may be nested. -/
theorem lowers_normalForm (functional : r.Functional captured) (depth : Nat) (n : Node K) :
    Lowers (normalForm r) Registry.anyName captured others (Interrupted r captured others)
      (r.lowerWithin depth) n := by
  induction depth generalizing n with
  | zero => exact fun given held _ => .giveUp fun s h => ⟨given, held, h⟩
  | succ depth ih =>
      refine lowerWith_triple (P := fun _ => True) (fun _ _ _ _ => trivial)
        (fun _ _ plain => lowers_plain plain) ?_ trivial
      intro id s operands lowered given _ held below forms
      have belowLowered := FormRelation.forall_below (F := normalForm r) forms
      refine rewrite_normalizes forms below held (fun memo w h => ?_) fun _ => ih
      refine (checkedExpansion?_rewrites functional held belowLowered w h.stock).imp
        (fun _ _ rewritten => rewritten) fun _ w' stock => ?_
      exact ⟨given, held, stock, h.memo⟩

/-- Lowering an expression in normal form is never given up, and asks for nothing to be lowered
again. -/
theorem lowers_normal (functional : r.Functional captured) (again : Node K → Pass K (Node K))
    (normal : r.Normal n) :
    Lowers (normalForm r) Registry.anyName captured others never (r.lowerWith again) n := by
  refine lowerWith_triple (P := r.Normal)
    (fun n normal m hm => normal.of_reaches (.of_mem_operands hm))
    (fun _ _ plain => lowers_plain plain) ?_ normal
  intro id s operands lowered given normal held below forms
  rcases Registry.normal_application.1 normal with ⟨kept, normal⟩
  obtain rfl := lowered_eq forms normal
  have belowLowered := FormRelation.forall_below (F := normalForm r) forms
  exact rewrite_normalizes forms below held
    (fun memo w h => checkedExpansion?_keeps functional held belowLowered kept w h.stock)
    fun high => absurd kept high

/-! ## Passes in use -/

/-- The states of a pass that has lowered nodes one after the other, some of them perhaps in vain. -/
inductive Registry.Used (r : Registry K) (w : Workspace K) :
    List (Node K) → Workspace K × Memo K → Prop where
  | fresh : r.Used w [] (w, ∅)
  | next {nodes : List (Node K)} {s : Workspace K × Memo K} (n : Node K) :
      r.Used w nodes s → r.Used w (n :: nodes) ((r.lowerNext n).run.run s).2

/-- What lowering comes to: a node of the same shape in normal form, which from then on is lowered to
itself, by a new pass and by one with the given memo. -/
structure Registry.Reduces (r : Registry K) (n m : Node K) (next : NodeId) (memo : Memo K) :
    Prop where
  shape : m.shape = n.shape
  normal : r.Normal m
  anew {w : Workspace K} : next ≤ w.nextId → ((r.lower m).runIn w).1 = .ok m
  again {w : Workspace K} : next ≤ w.nextId → ((r.lowerNext m).run.run (w, memo)).1 = .ok m

variable {w : Workspace K} {nodes : List (Node K)} {m : Node K} {state : Workspace K × Memo K}

theorem lower_runIn (r : Registry K) (n : Node K) (w : Workspace K) :
    (r.lower n).runIn w =
      (((r.lowerNext n).run.run (w, ∅)).1, ((r.lowerNext n).run.run (w, ∅)).2.1) := rfl

theorem lowerNext_eq_ok (functional : r.Functional captured) (held : captured ⊆ given)
    (h : Recalls (normalForm r) Registry.anyName given others state)
    (below : Node.Below (given ++ others) n) (normal : r.Normal n) :
    ((r.lowerNext n).run.run state).1 = .ok n := by
  have lowered := lowers_normal functional (r.lowerWithin (nestingLimit - 1)) normal given held
    below state h
  rw [← Registry.lowerNext_eq] at lowered
  revert lowered
  rcases (r.lowerNext n).run.run state with ⟨_ | m, s'⟩
  · exact False.elim
  · rintro ⟨_, _, form, _⟩
    exact congrArg Except.ok (form.kept normal)

theorem reduces_of_run (functional : r.Functional captured) (held : captured ⊆ given)
    (h : Recalls (normalForm r) Registry.anyName given others state)
    (below : Node.Below (given ++ others) n) {state' : Workspace K × Memo K}
    (run : (r.lowerNext n).run.run state = (.ok m, state')) :
    r.Reduces n m state'.1.nextId state'.2 := by
  rcases Lowers.of_run (lowers_normalForm functional nestingLimit n) held h below run with
    ⟨more, sub, form, h'⟩
  have here : Node.Below (more ++ others) m := form.below.mono (List.subset_append_left more others)
  refine ⟨form.shape, form.normal, fun later => ?_, fun later => ?_⟩
  · -- a new pass has forgotten everything but what is around
    have forgetful := Recalls.empty (F := normalForm r) (h'.later later).stock
    exact lowerNext_eq_ok functional (List.Subset.trans held sub) forgetful here form.normal
  · exact lowerNext_eq_ok functional (List.Subset.trans held sub) (h'.later later) here form.normal

theorem Registry.Used.recalls (functional : r.Functional captured) (used : r.Used w nodes state)
    (stock : Stock Registry.anyName captured others w.nextId) (among : nodes ⊆ others) :
    ∃ given, captured ⊆ given ∧ Recalls (normalForm r) Registry.anyName given others state := by
  induction used with
  | fresh => exact ⟨captured, List.Subset.refl captured, .empty stock⟩
  | @next nodes s n _ ih =>
      rw [List.cons_subset] at among
      rcases ih among.2 with ⟨given, held, h⟩
      have below : Node.Below (given ++ others) n :=
        .of_mem (List.mem_append_right given among.1)
      have lowered := lowers_normalForm functional nestingLimit n given held below s h
      rw [← Registry.lowerNext] at lowered
      revert lowered
      rcases (r.lowerNext n).run.run s with ⟨_ | m, s'⟩
      · exact id
      · exact fun ⟨more, sub, _, h⟩ => ⟨more, List.Subset.trans held sub, h⟩

/-- Lowering comes to a node in normal form, which is lowered to itself; and so is every node that is
in normal form from the start. -/
theorem lower_normalizes (functional : r.Functional captured)
    (coherent : Node.Coherent (captured ++ n :: nodes))
    (older : ∀ k ∈ captured ++ n :: nodes, k.Older w.nextId) (used : r.Used w nodes state) :
    (∀ m w', (r.lower n).runIn w = (.ok m, w') →
      ∃ memo, (r.lowerNext n).run.run (w, ∅) = (.ok m, (w', memo)) ∧
        r.Reduces n m w'.nextId memo) ∧
    (∀ m state', (r.lowerNext n).run.run state = (.ok m, state') →
      r.Reduces n m state'.1.nextId state'.2) ∧
    (r.Normal n →
      ((r.lower n).runIn w).1 = .ok n ∧ ((r.lowerNext n).run.run state).1 = .ok n) := by
  have stock : Stock Registry.anyName captured (n :: nodes) w.nextId :=
    ⟨coherent, older, fun _ _ _ _ _ _ => trivial⟩
  rcases used.recalls functional stock (List.subset_cons_self n nodes) with ⟨given, held, h⟩
  have first : Recalls (normalForm r) Registry.anyName captured (n :: nodes) (w, ∅) := .empty stock
  have whole := List.Subset.refl captured
  have below (given : List (Node K)) : Node.Below (given ++ n :: nodes) n :=
    .of_mem (List.mem_append_right given List.mem_cons_self)
  refine ⟨fun m w' run => ?_, fun m state' run => ?_, fun normal => ⟨?_, ?_⟩⟩
  · rw [lower_runIn] at run
    rcases outcome : (r.lowerNext n).run.run (w, ∅) with ⟨_, _, memo⟩
    rw [outcome] at run
    cases run
    exact ⟨memo, rfl, reduces_of_run functional whole first (below captured) outcome⟩
  · exact reduces_of_run functional held h (below given) run
  · exact lowerNext_eq_ok functional whole first (below captured) normal
  · exact lowerNext_eq_ok functional held h (below given) normal

namespace Standard

section

variable [Arithmetic K] [Numeral K]

/-- The standard hooks are functions of the operands; none of them ever declines. -/
theorem standard_functional : (Registry.standard : Registry K).Functional [] where
  optimize := standard_draws trivial
  replace hook _ _ _ below := by
    rcases operator_of_hook (·.replace) rfl hook with ⟨o, _, hook⟩
    exact (draws_replace o below hook).allow fun _ _ => trivial
  expand hook _ _ _ below := by
    rcases operator_of_hook (·.expand) rfl hook with ⟨o, _, hook⟩
    refine ((draws_expand o below hook).allow fun _ _ => trivial).mono ?_
    rintro now n? ⟨n, rfl, drawn⟩
    exact offered_some drawn
  declines {s rule} hook {operands w} declined := by
    rcases operator_of_hook (·.expand) rfl hook with ⟨o, _, hook⟩
    have draws := draws_expand o (fun m (hm : m ∈ operands) => Node.Below.of_mem hm) hook
    have answered := draws.answers (Registry.standard : Registry K).make w trivial
    rw [Work.runIn] at declined
    revert declined answered
    rcases (Registry.follow (Registry.standard : Registry K).make (rule operands)).run.run w with
      ⟨_ | _, w'⟩
    · exact fun declined => absurd declined (by simp)
    · rintro declined ⟨now, n, rfl, _⟩
      exact absurd declined (by simp)

end

/-- A rotated point, brought back from homogeneous coordinates, is lowered to an expression that
lowering does not change. -/
theorem lower_normalizes_rotated :
    let a : Node Float := .leaf 4 "a" .scalar
    let p : Node Float := .leaf 5 "p" .vec4
    let rotation : Node Float := .application 6 ⟨.mat44, "mat44RotationX", [.scalar]⟩ [a]
    let moved : Node Float := .application 7 ⟨.vec4, "*", [.mat44, .vec4]⟩ [rotation, p]
    let cartesian : Node Float := .application 8 ⟨.vec3, "fromHomo", [.vec4]⟩ [moved]
    ∃ m w', ((Registry.standard : Registry Float).lower cartesian).runIn ⟨9, #[]⟩ = (.ok m, w') ∧
      m.shape = .vec3 ∧ (Registry.standard : Registry Float).Normal m ∧
      (((Registry.standard : Registry Float).lower m).runIn w').1 = .ok m := by
  intro a p rotation moved cartesian
  have aboutX : axisRotations[1]? = some AxisRotation.aboutX := rfl
  have typedRotation : Typed rotation :=
    typed_application (.axisRotation 1 .aboutX aboutX) 6 rfl
      (List.forall_mem_singleton.2 (.leaf 4 "a" .scalar))
  have typedMoved : Typed moved :=
    typed_application (.columnProduct .mat44 .vec4 (by simp [IsColumn])) 7 rfl
      (List.forall_mem_cons.2 ⟨typedRotation, List.forall_mem_singleton.2 (.leaf 5 "p" .vec4)⟩)
  have typed : Typed cartesian :=
    typed_application .fromHomogeneous 8 rfl (List.forall_mem_singleton.2 typedMoved)
  let nodes := [cartesian, moved, rotation, p, a]
  have closed : ∀ n ∈ nodes, ∀ m ∈ n.operands, m ∈ nodes := by
    simp [nodes, cartesian, moved, rotation, a, p]
  have coherent : Node.Coherent [cartesian] :=
    (Node.Coherent.of_closed closed (by decide)).of_subset (by simp [nodes])
  have older : cartesian.Older 9 := by
    intro x below
    have known := below.mem_of_closed closed List.mem_cons_self
    simp only [nodes, List.mem_cons, List.not_mem_nil, or_false] at known
    rcases known with rfl | rfl | rfl | rfl | rfl
    all_goals decide
  have some_assignment : Assignment Float := fun _ => .zero .scalar
  have alone := List.forall_mem_singleton.2 older
  rcases (lower_triple (ρ := some_assignment) typed coherent List.mem_cons_self).runIn_eq_ok
    (w := ⟨9, #[]⟩) alone with ⟨m, w', run, _⟩
  have normalizes := lower_normalizes (w := ⟨9, #[]⟩) standard_functional coherent alone .fresh
  rcases normalizes.1 m w' run with ⟨memo, _, reduces⟩
  exact ⟨m, w', run, reduces.shape, reduces.normal, reduces.anew (Nat.le_refl _)⟩

end Standard

end SymbolicLinalg
