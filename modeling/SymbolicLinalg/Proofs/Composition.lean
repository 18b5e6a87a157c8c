import SymbolicLinalg.Node.Typing
import SymbolicLinalg.Proofs.Growth

/-!
# Composition — registered operators over operands that fit

An expression is composed of some atoms, if every application in it is of a registered operator, over
operands of the shapes that the operator takes, and every constant and every leaf in it is an atom.
Construction keeps to composed expressions whatever the hooks do, as long as they draw on what they
are given and make nothing but atoms: operands are checked before an application is made.  The
operands may be composed over more operators than those of the registry that constructs.

* `Node.Composed`: an expression is composed of atoms;
* `Recipe.Yields`: a recipe draws on given nodes and makes atoms;
* `Recipe.Yields.run_triple`: what is at hand while a recipe is carried out;
* `Registry.make_gathers`: construction adds a composed node to what is around.
-/

namespace SymbolicLinalg

variable {K : Type}

namespace Node

/-- Every application is of a registered operator over operands that fit, and everything else is an
atom. -/
structure Composed (atoms : Node K → Prop) (r : Registry K) (n : Node K) : Prop where
  applied : ∀ id s operands, n.Reaches (.application id s operands) →
    r.Knows s ∧ operands.map shape = s.operands
  plain : ∀ x, n.Reaches x → x.isApplication = false → atoms x

section

variable {atoms : Node K → Prop} {r more : Registry K} {given : List (Node K)} {n m : Node K}

theorem Composed.of_reaches (h : n.Composed atoms r) (below : n.Reaches m) : m.Composed atoms r where
  applied id s operands reached := h.applied id s operands (below.trans reached)
  plain x reached := h.plain x (below.trans reached)

theorem composed_of_below (h : ∀ m ∈ given, m.Composed atoms r) (below : Below given n) :
    n.Composed atoms r := by
  rcases below with ⟨k, hk, below⟩
  exact (h k hk).of_reaches below

theorem composed_of_plain (plain : n.isApplication = false) (atom : atoms n) :
    n.Composed atoms r := by
  -- nothing lies below a constant or a leaf but itself
  have alone (x : Node K) (reached : n.Reaches x) : x = n := by
    cases n with
    | constant | leaf => exact reached.eq_of_operands_eq_nil rfl
    | application => exact absurd plain nofun
  constructor
  · intro id s operands reached
    rw [← alone _ reached] at plain
    exact absurd plain nofun
  · intro x reached _
    rwa [alone x reached]

theorem composed_application {id : NodeId} {s : Signature} {operands : List (Node K)}
    (known : r.Knows s) (shapes : operands.map shape = s.operands)
    (parts : ∀ m ∈ operands, m.Composed atoms r) :
    (application id s operands).Composed atoms r := by
  constructor
  · intro i t ns reached
    rcases reaches_iff.1 reached with same | ⟨m, hm, reached⟩
    · obtain ⟨-, rfl, rfl⟩ := application.inj same
      exact ⟨known, shapes⟩
    · exact (parts m hm).applied i t ns reached
  · intro x reached plain
    rcases reaches_iff.1 reached with rfl | ⟨m, hm, reached⟩
    · exact absurd plain nofun
    · exact (parts m hm).plain x reached plain

/-- Expressions stay composed when operators are added to the registry. -/
theorem Composed.mono (h : n.Composed atoms r) (sub : r.definitions ⊆ more.definitions) :
    n.Composed atoms more where
  applied id s operands reached := by
    rcases h.applied id s operands reached with ⟨⟨d, hd, same⟩, shapes⟩
    exact ⟨⟨d, sub hd, same⟩, shapes⟩
  plain := h.plain

end

end Node

/-! ## Recipes that make atoms -/

/-- A constant or a leaf that is made is an atom, under whatever identity. -/
def Construction.Makes (atoms : Node K → Prop) : Construction K → Prop
  | .constant v => ∀ id, atoms (.constant id v)
  | .leaf name s => ∀ id, atoms (.leaf id name s)
  | .apply _ _ | .applyFor _ _ _ => True

section

variable {ρ σ α : Type}

/-- All constants and leaves that a recipe makes are atoms. -/
def Recipe.Makes (atoms : Node K → Prop) : Recipe K ρ σ α → Prop
  | .done _ | .refuse _ => True
  | .make c next => c.Makes atoms ∧ ∀ n, (next n).Makes atoms
  | .ask _ next => ∀ answer, (next answer).Makes atoms

/-- A recipe draws on given nodes and makes nothing but atoms. -/
structure Recipe.Yields [Dialogue K ρ σ] (atoms : Node K → Prop) (given : List (Node K))
    (post : List (Node K) → α → Prop) (recipe : Recipe K ρ σ α) : Prop where
  draws : recipe.Draws Registry.anyName given post
  makes : recipe.Makes atoms

variable [Dialogue K ρ σ] {S : Type} {atoms : Node K → Prop} {captured given : List (Node K)}

/-- Carrying a recipe out, where the nodes at hand belong to the state: making a node and asking for
others adds to them. -/
theorem Recipe.Yields.run_triple {A : List (Node K) → S → Prop} {fault : Fault → S → Prop}
    {make : Construction K → ExceptT Fault (StateM S) (Node K)}
    {answer : ρ → ExceptT Fault (StateM S) σ} {refuse : Error → ExceptT Fault (StateM S) α}
    (makes : ∀ c given, captured ⊆ given → c.Makes atoms → c.Draws Registry.anyName given →
      Triple (A given) (make c) (fun n => A (n :: given)) fault)
    (answers : ∀ request given, captured ⊆ given →
      (∀ n ∈ Dialogue.shows σ request, Node.Below given n) →
        Triple (A given) (answer request) (fun a => A (Dialogue.hands ρ a ++ given)) fault)
    (refuses : ∀ e given, captured ⊆ given → Triple (A given) (refuse e) (fun _ _ => False) fault)
    {recipe : Recipe K ρ σ α} {post : List (Node K) → α → Prop}
    (h : recipe.Yields atoms given post) (held : captured ⊆ given) :
    Triple (A given) (recipe.run make answer refuse)
      (fun a s => ∃ now, given ⊆ now ∧ post now a ∧ A now s) fault := by
  -- what is at hand grows along the recipe, so the induction is over any nodes that are given
  induction recipe generalizing given with
  | done a => exact .value fun s hs => ⟨given, List.Subset.refl given, h.draws, hs⟩
  | refuse e => exact (refuses e given held).relax fun _ _ => False.elim
  | make c next ih =>
      refine (makes c given held h.makes.1 h.draws.1).bind fun n => ?_
      refine (ih n ⟨h.draws.2 n, h.makes.2 n⟩ (List.subset_cons_of_subset n held)).relax ?_
      intro a s hs
      rcases hs with ⟨now, sub, ha, hs⟩
      exact ⟨now, List.subset_of_cons_subset sub, ha, hs⟩
  | ask request next ih =>
      refine (answers request given held h.draws.1).bind fun reply => ?_
      refine (ih reply ⟨h.draws.2 reply, h.makes reply⟩
        (List.subset_append_of_subset_right _ held)).relax ?_
      intro a s hs
      rcases hs with ⟨now, sub, ha, hs⟩
      exact ⟨now, (List.append_subset.1 sub).2, ha, hs⟩

/-- Carrying a recipe out in a pass, which keeps an invariant `keeps` of what is around.  Composed
nodes are at hand, and so are those that are made and handed out on the way. -/
theorem Recipe.Yields.keeps_run {r : Registry K} {base around : List (Node K)}
    {keeps : List (Node K) → S → Prop} {fault : Fault → S → Prop}
    {make : Construction K → ExceptT Fault (StateM S) (Node K)}
    {answer : ρ → ExceptT Fault (StateM S) σ} {refuse : Error → ExceptT Fault (StateM S) α}
    (makes : ∀ c given around, captured ⊆ given → base ⊆ around → c.Makes atoms →
      c.Draws Registry.anyName given → (∀ n ∈ given, Node.Below around n ∧ n.Composed atoms r) →
      Triple (keeps around) (make c)
        (fun n s => ∃ more, around ⊆ more ∧ (Node.Below more n ∧ n.Composed atoms r) ∧ keeps more s)
        fault)
    (answers : ∀ request around, base ⊆ around →
      (∀ n ∈ Dialogue.shows σ request, Node.Below around n ∧ n.Composed atoms r) →
      Triple (keeps around) (answer request)
        (fun a s => ∃ more, around ⊆ more ∧
          (∀ n ∈ Dialogue.hands ρ a, Node.Below more n ∧ n.Composed atoms r) ∧ keeps more s) fault)
    (refuses : ∀ e around, base ⊆ around →
      Triple (keeps around) (refuse e) (fun _ _ => False) fault)
    {recipe : Recipe K ρ σ α} {post : List (Node K) → α → Prop}
    (h : recipe.Yields atoms given post) (held : captured ⊆ given) (sub : base ⊆ around)
    (ready : ∀ n ∈ given, Node.Below around n ∧ n.Composed atoms r) :
    Triple (keeps around) (recipe.run make answer refuse)
      (fun a s => ∃ now more, around ⊆ more ∧
        (∀ n ∈ now, Node.Below more n ∧ n.Composed atoms r) ∧ post now a ∧ keeps more s) fault := by
  -- the state has its own list of what is around; how far it has grown is part of what is at hand
  let atHand (now : List (Node K)) (s : S) : Prop :=
    ∃ more, around ⊆ more ∧ (∀ n ∈ now, Node.Below more n ∧ n.Composed atoms r) ∧ keeps more s
  have ran : Triple (atHand given) (recipe.run make answer refuse)
      (fun a s => ∃ now, given ⊆ now ∧ post now a ∧ atHand now s) fault := by
    refine h.run_triple (A := atHand) (fun c now held makeable drawn => ?_)
      (fun request now held shown => ?_) (fun e now held => ?_) held
    · refine .of_exists fun more => .assuming fun grown => .assuming fun ready => ?_
      refine (makes c now more held (List.Subset.trans sub grown) makeable drawn ready).relax ?_
      intro n s hs
      rcases hs with ⟨later, grown', made, kept⟩
      exact ⟨later, List.Subset.trans grown grown', List.forall_mem_cons.2 ⟨made, fun m hm =>
        ⟨(ready m hm).1.mono grown', (ready m hm).2⟩⟩, kept⟩
    · refine .of_exists fun more => .assuming fun grown => .assuming fun ready => ?_
      refine (answers request more (List.Subset.trans sub grown) fun n hn => ?_).relax ?_
      · exact ⟨(shown n hn).trans fun m hm => (ready m hm).1,
          Node.composed_of_below (fun m hm => (ready m hm).2) (shown n hn)⟩
      · intro a s hs
        rcases hs with ⟨later, grown', handed, kept⟩
        exact ⟨later, List.Subset.trans grown grown', List.forall_mem_append.2 ⟨handed, fun m hm =>
          ⟨(ready m hm).1.mono grown', (ready m hm).2⟩⟩, kept⟩
    · refine .of_exists fun more => .assuming fun grown => .assuming fun _ => ?_
      exact refuses e more (List.Subset.trans sub grown)
  refine ran.weaken (fun s kept => ⟨around, List.Subset.refl around, ready, kept⟩) ?_ fun _ _ => id
  intro a s hs
  rcases hs with ⟨now, _, ha, more, grown, atHand, kept⟩
  exact ⟨now, more, grown, atHand, ha, kept⟩

end

/-! ## Construction -/

namespace Registry

variable {r : Registry K} {captured given operands : List (Node K)} {s : Signature}

theorem shapes_of_mismatch?_eq_none {shapes : List Shape} (position : Nat)
    (length : operands.length = shapes.length) (none : mismatch? position operands shapes = none) :
    operands.map Node.shape = shapes := by
  induction operands generalizing shapes position with
  | nil => exact (List.eq_nil_of_length_eq_zero length.symm).symm
  | cons n rest ih =>
      cases shapes with
      | nil => exact absurd length (Nat.succ_ne_zero _)
      | cons t shapes =>
          rw [mismatch?] at none
          split at none
          · rename_i same
            rw [List.map_cons, same, ih (position + 1) (Nat.succ.inj length) none]
          · exact absurd none (Option.some_ne_none _)

theorem shapes_of_checkOperands_eq_ok (accepted : checkOperands s operands = .ok ()) :
    operands.map Node.shape = s.operands := by
  rw [checkOperands] at accepted
  split at accepted
  · exact absurd accepted (by simp)
  · rename_i length
    split at accepted
    · exact absurd accepted (by simp)
    · rename_i none
      exact shapes_of_mismatch?_eq_none 0 (not_not.1 length) none

/-- Whatever an `optimize` hook answers, the node has the shape of the result. -/
theorem buildWith_shape (make : Construction K → Work K (Node K)) (d : Definition K)
    (operands : List (Node K)) :
    Triple (fun _ => True) (buildWith make d operands) (fun n _ => n.shape = d.signature.result)
      fun _ _ => True := by
  rw [buildWith]
  refine Triple.bind (m := fun _ _ => True) (.ofExcept (fun _ _ _ _ => trivial)
    fun _ _ _ _ => trivial) fun _ => Triple.bind (m := fun _ _ => True) ?_ fun n? => ?_
  · intro w _
    rcases (simplify? make d operands).run.run w with ⟨_ | _, _⟩ <;> trivial
  · cases n? with
    | none => exact fun _ _ => rfl
    | some n =>
        rw [settle]
        split
        · exact .refuse fun _ _ => trivial
        · rename_i same
          exact fun _ _ => not_not.1 same

/-- What is known of the shape of a node when it has been made. -/
def Promises (r : Registry K) (c : Construction K) (n : Node K) : Prop :=
  match c with
  | .constant v => n.shape = v.shape
  | .leaf _ s => n.shape = s
  | .apply name operands =>
      ∃ d, r.resolve name (operands.map Node.shape) = .ok d ∧ n.shape = d.signature.result
  | .applyFor result name operands =>
      ∃ d, r.resolveAs result name (operands.map Node.shape) = .ok d ∧
        n.shape = d.signature.result

theorem make_promises (r : Registry K) (c : Construction K) :
    Triple (fun _ => True) (r.make c) (fun n _ => r.Promises c n) fun _ _ => True := by
  have built (resolved : Except Error (Definition K)) (operands : List (Node K)) :
      Triple (fun _ => True)
        (Work.ofExcept resolved >>= fun d => buildWith (r.makeWithin (nestingLimit - 1)) d operands)
        (fun n _ => ∃ d, resolved = .ok d ∧ n.shape = d.signature.result) fun _ _ => True := by
    refine Triple.bind (m := fun d _ => resolved = .ok d ∧ True)
      (.ofExcept (fun d found _ _ => ⟨found, trivial⟩) fun _ _ _ _ => trivial)
      fun d => .assuming fun found => ?_
    exact (buildWith_shape _ d operands).relax fun n _ shape => ⟨d, found, shape⟩
  rw [make_eq]
  cases c with
  | constant | leaf => exact fun _ _ => rfl
  | apply name operands => exact built _ operands
  | applyFor result name operands => exact built _ operands

variable {atoms : Node K → Prop}

/-- Over operands that fit, the `optimize` hooks make nothing but atoms. -/
def Simplifies (atoms : Node K → Prop) (r : Registry K) : Prop :=
  ∀ d ∈ r.definitions, ∀ optimize, d.hooks.optimize = some optimize →
    ∀ operands, (∀ m ∈ operands, m.Composed atoms r) →
      operands.map Node.shape = d.signature.operands → (optimize operands).Makes atoms

/-- Composed nodes come out of construction if they go in. -/
def Composes (atoms : Node K → Prop) (captured : List (Node K)) (r : Registry K)
    (make : Construction K → Work K (Node K)) : Prop :=
  ∀ c given, captured ⊆ given → c.Makes atoms → c.Draws anyName given →
    (∀ n ∈ given, n.Composed atoms r) →
      Triple (fun _ => True) (make c) (fun n _ => n.Composed atoms r) fun _ _ => True

section

variable {part : Registry K} {make : Construction K → Work K (Node K)}
  (draws : r.Draws anyName captured) (simplifies : r.Simplifies atoms)

include draws simplifies

theorem buildWith_composes (composes : r.Composes atoms captured make) {d : Definition K}
    (hd : d ∈ r.definitions) (held : captured ⊆ given) (composed : ∀ n ∈ given, n.Composed atoms r)
    (below : ∀ m ∈ operands, Node.Below given m) :
    Triple (fun _ => True) (buildWith make d operands) (fun n _ => n.Composed atoms r)
      fun _ _ => True := by
  have parts := fun m hm => Node.composed_of_below composed (below m hm)
  rw [buildWith]
  -- the check of the operands is what makes the application fit, if it comes to one
  refine Triple.bind (m := fun _ _ => operands.map Node.shape = d.signature.operands ∧ True)
    (.ofExcept (fun _ accepted _ _ => ⟨shapes_of_checkOperands_eq_ok accepted, trivial⟩)
      fun _ _ _ _ => trivial) fun _ => .assuming fun shapes => ?_
  refine Triple.bind (m := fun n? _ => ∀ n ∈ n?, n.Composed atoms r) ?_ fun n? => ?_
  · rw [simplify?]
    cases hook : d.hooks.optimize with
    | none => exact .value fun _ _ n hn => absurd hn (Option.not_mem_none n)
    | some optimize =>
        have yields : (optimize operands).Yields atoms given fun now n? =>
            ∀ n ∈ n?, Node.Below now n :=
          ⟨draws d hd trivial optimize hook operands given held below,
            simplifies d hd optimize hook operands parts shapes⟩
        have followed : Triple (fun _ : Workspace K => ∀ n ∈ given, n.Composed atoms r)
            (follow make (optimize operands)) (fun n? _ => ∃ now, given ⊆ now ∧
              (∀ n ∈ n?, Node.Below now n) ∧ ∀ n ∈ now, n.Composed atoms r) fun _ _ => True := by
          refine yields.run_triple (A := fun now _ => ∀ n ∈ now, n.Composed atoms r) ?_
            (fun request => request.elim) (fun _ _ _ => .refuse fun _ _ => trivial) held
          intro c now held makes drawn w composed
          refine (composes c now held makes drawn composed w trivial).imp (fun n _ hn => ?_)
            fun _ _ => id
          exact List.forall_mem_cons.2 ⟨hn, composed⟩
        refine followed.weaken (fun _ _ => composed) ?_ fun _ _ => id
        intro n? w hs n hn
        rcases hs with ⟨now, _, offered, composed⟩
        exact Node.composed_of_below composed (offered n hn)
  · intro w answer
    cases n? with
    | none => exact Node.composed_application ⟨d, hd, rfl⟩ shapes parts
    | some n =>
        rw [settle]
        split
        · trivial
        · exact answer n rfl

theorem makeWith_composes (within : part.definitions ⊆ r.definitions)
    (composes : r.Composes atoms captured make) :
    r.Composes atoms captured (part.makeWith make) := by
  intro c given held makes drawn composed
  have built {resolved : Except Error (Definition K)} {operands : List (Node K)}
      (known : ∀ d, resolved = .ok d → d ∈ part.definitions)
      (below : ∀ m ∈ operands, Node.Below given m) :
      Triple (fun _ => True) (Work.ofExcept resolved >>= fun d => buildWith make d operands)
        (fun n _ => n.Composed atoms r) fun _ _ => True := by
    refine Triple.bind (m := fun d _ => d ∈ part.definitions ∧ True)
      (.ofExcept (fun d found _ _ => ⟨known d found, trivial⟩) fun _ _ _ _ => trivial)
      fun d => .assuming fun hd => ?_
    exact buildWith_composes draws simplifies composes (within hd) held composed below
  cases c with
  | constant v => exact fun w _ => Node.composed_of_plain rfl (makes w.nextId)
  | leaf name s => exact fun w _ => Node.composed_of_plain rfl (makes w.nextId)
  | apply name operands => exact built (fun d found => (mem_of_resolve_eq_ok found).1) drawn.2
  | applyFor result name operands =>
      exact built (fun d found => (mem_of_resolveAs_eq_ok found).1) drawn.2

theorem make_composes (within : part.definitions ⊆ r.definitions) :
    r.Composes atoms captured part.make := by
  -- hooks construct one level further down; at the limit the work is given up
  have levels (depth : Nat) : r.Composes atoms captured (part.makeWithin depth) := by
    induction depth with
    | zero => exact fun _ _ _ _ _ _ => .giveUp fun _ _ => trivial
    | succ depth ih => exact makeWith_composes draws simplifies within ih
  exact levels nestingLimit

end

end Registry

/-! ## Composed nodes that are around -/

/-- The given nodes are composed, and coherent with others and older than the next identity. -/
structure Gathered (atoms : Node K → Prop) (r : Registry K) (given others : List (Node K))
    (next : NodeId) : Prop where
  stock : Stock Registry.anyName given others next
  composed : ∀ n ∈ given, n.Composed atoms r

namespace Gathered

variable {atoms : Node K → Prop} {r : Registry K} {given fewer others : List (Node K)}
  {next : NodeId}

theorem of_subset (h : Gathered atoms r given others next) (sub : fewer ⊆ given) :
    Gathered atoms r fewer others next :=
  ⟨h.stock.of_subset sub, fun n hn => h.composed n (sub hn)⟩

/-- Composed nodes may be gathered from what is around. -/
theorem of_stock (stock : Stock Registry.anyName others [] next)
    (below : ∀ n ∈ given, Node.Below others n) (composed : ∀ n ∈ given, n.Composed atoms r) :
    Gathered atoms r given others next := by
  have all : ∀ n ∈ given ++ others, Node.Below others n :=
    List.forall_mem_append.2 ⟨below, fun _ => .of_mem⟩
  refine ⟨⟨stock.coherent_given.of_below all, fun n hn => ?_, fun _ _ _ _ _ _ => trivial⟩, composed⟩
  exact stock.older_of_below ((all n hn).mono (List.subset_append_left others []))

/-- What has been gathered is around. -/
theorem stock_append (h : Gathered atoms r given others next) :
    Stock Registry.anyName (given ++ others) [] next := by
  refine ⟨?_, ?_, fun _ _ _ _ _ _ => trivial⟩
  · rw [List.append_nil]
    exact h.stock.coherent
  · rw [List.append_nil]
    exact h.stock.older

theorem stock_others (h : Gathered atoms r given others next) :
    Stock Registry.anyName others [] next :=
  h.stock_append.of_subset (List.subset_append_right given others)

theorem cons_of_constant (h : Gathered atoms r given others next) {v : Literal K}
    (atom : atoms (.constant next v)) :
    Gathered atoms r (.constant next v :: given) others (next + 1) :=
  ⟨h.stock.cons_of_fresh rfl (by simp) nofun,
    List.forall_mem_cons.2 ⟨Node.composed_of_plain rfl atom, h.composed⟩⟩

end Gathered

namespace Registry

variable {atoms : Node K → Prop} {r part : Registry K} {captured given : List (Node K)}

/-- What is asked of the `optimize` hooks for construction, and of the nodes that hooks have
captured. -/
structure Constructs (atoms : Node K → Prop) (captured : List (Node K)) (r : Registry K) : Prop where
  draws : r.Draws anyName captured
  simplifies : r.Simplifies atoms
  composed : ∀ n ∈ captured, n.Composed atoms r

/-- Construction adds a composed node to what is around; when it is given up, that is as before. -/
theorem make_gathers (constructs : r.Constructs atoms captured)
    (within : part.definitions ⊆ r.definitions) {c : Construction K} (held : captured ⊆ given)
    (makes : c.Makes atoms) (drawn : c.Draws anyName given) (others : List (Node K)) :
    Triple (fun w => Gathered atoms r given others w.nextId) (part.make c)
      (fun n w => Gathered atoms r (n :: given) others w.nextId)
      fun _ w => Gathered atoms r given others w.nextId := by
  intro w gathered
  have grows := make_grows (fun d hd => constructs.draws d (within hd)) c given others held drawn w
    gathered.stock
  have composes := make_composes constructs.draws constructs.simplifies within c given held makes
    drawn gathered.composed w trivial
  revert grows composes
  rcases (part.make c).run.run w with ⟨_ | n, w'⟩
  · exact fun stock _ => ⟨stock, gathered.composed⟩
  · exact fun stock composed => ⟨stock, List.forall_mem_cons.2 ⟨composed, gathered.composed⟩⟩

/-- Applying a definition of the registry adds a composed node of the shape of the result. -/
theorem build_gathers (constructs : r.Constructs atoms captured)
    (within : part.definitions ⊆ r.definitions) {d : Definition K} (hd : d ∈ part.definitions)
    (held : captured ⊆ given) {operands : List (Node K)}
    (below : ∀ m ∈ operands, Node.Below given m) (others : List (Node K)) :
    Triple (fun w => Gathered atoms r given others w.nextId) (part.build d operands)
      (fun n w => n.shape = d.signature.result ∧ Gathered atoms r (n :: given) others w.nextId)
      fun _ w => Gathered atoms r given others w.nextId := by
  have draws : part.Draws anyName captured := fun d hd => constructs.draws d (within hd)
  intro w gathered
  have grows := buildWith_grows draws (make_grows draws) hd trivial held below w gathered.stock
  have composes := buildWith_composes constructs.draws constructs.simplifies
    (make_composes constructs.draws constructs.simplifies within) (within hd) held gathered.composed
    below w trivial
  have shape := buildWith_shape part.make d operands w trivial
  rw [build]
  revert grows composes shape
  rcases (buildWith part.make d operands).run.run w with ⟨_ | n, w'⟩
  · exact fun stock _ _ => ⟨stock, gathered.composed⟩
  · exact fun stock composed shape =>
      ⟨shape, stock, List.forall_mem_cons.2 ⟨composed, gathered.composed⟩⟩

theorem rebuild_gathers (constructs : r.Constructs atoms captured)
    (within : part.definitions ⊆ r.definitions) {s : Signature} (known : part.Knows s)
    (held : captured ⊆ given) {operands : List (Node K)}
    (below : ∀ m ∈ operands, Node.Below given m) (others : List (Node K)) :
    Triple (fun w => Gathered atoms r given others w.nextId) (part.rebuild s operands)
      (fun n w => n.shape = s.result ∧ Gathered atoms r (n :: given) others w.nextId)
      fun _ w => Gathered atoms r given others w.nextId := by
  refine build_gathers constructs within ?_ held below others
  -- the definition that is found has this signature too, and only its signature matters
  rcases known with ⟨d, hd, rfl⟩
  cases found : part.find? d.signature with
  | none => exact absurd (List.find?_eq_none.1 found d hd) (by simp)
  | some e =>
      rw [hooks, found, ← signature_of_find? found]
      exact List.mem_of_find?_eq_some found

/-- What carrying a rule out adds to what is around. -/
theorem follow_gathers (constructs : r.Constructs atoms captured) {α : Type} {rule : Rule K α}
    {post : List (Node K) → α → Prop} (yields : rule.Yields atoms given post)
    (held : captured ⊆ given) (others : List (Node K)) :
    Triple (fun w => Gathered atoms r given others w.nextId) (follow r.make rule)
      (fun a w => ∃ now, given ⊆ now ∧ post now a ∧ Gathered atoms r now others w.nextId)
      fun _ w => Gathered atoms r given others w.nextId := by
  refine yields.run_triple
    (A := fun now (w : Workspace K) => Gathered atoms r now others w.nextId) ?_
    (fun request => request.elim) ?_ (List.Subset.refl given)
  · intro c now sub makes drawn
    exact (make_gathers constructs (List.Subset.refl _) (List.Subset.trans held sub) makes drawn
      others).weaken
      (fun _ => id) (fun _ _ => id) fun _ _ gathered => gathered.of_subset sub
  · exact fun _ now sub => .refuse fun _ gathered => gathered.of_subset sub

end Registry

/-! ## What construction leaves alone -/

section

variable {α : Type} {make : Construction K → Work K (Node K)} {keeps : Workspace K → Prop}

theorem follow_keeps (makes : ∀ c, Triple keeps (make c) (fun _ => keeps) fun _ => keeps)
    (rule : Rule K α) :
    Triple keeps (Registry.follow make rule) (fun _ => keeps) fun _ => keeps := by
  induction rule with
  | done a => exact .value fun _ => id
  | refuse e => exact .refuse fun _ => id
  | make c next ih => exact (makes c).bind ih
  | ask request next => exact request.elim

variable (fresh : ∀ w, keeps w → keeps { w with nextId := w.nextId + 1 })
  (simplified : ∀ s n w, keeps w → keeps { w with events := w.events.push (.simplified s n) })

include fresh simplified

theorem buildWith_keeps (makes : ∀ c, Triple keeps (make c) (fun _ => keeps) fun _ => keeps)
    (d : Definition K) (operands : List (Node K)) :
    Triple keeps (Registry.buildWith make d operands) (fun _ => keeps) fun _ => keeps := by
  have simplifies : Triple keeps (Registry.simplify? make d operands) (fun _ => keeps)
      fun _ => keeps := by
    rw [Registry.simplify?]
    cases d.hooks.optimize with
    | none => exact .value fun _ => id
    | some optimize => exact follow_keeps makes (optimize operands)
  rw [Registry.buildWith]
  refine Triple.bind (m := fun _ => keeps) (.ofExcept (fun _ _ _ => id) fun _ _ _ => id)
    fun _ => simplifies.bind fun n? => ?_
  cases n? with
  | none => exact fresh
  | some n =>
      rw [Registry.settle]
      split
      · exact .refuse fun _ => id
      · exact simplified d.signature n

/-- Construction keeps what handing out identities and telling of simplifications keep. -/
theorem make_keeps (r : Registry K) (c : Construction K) :
    Triple keeps (r.make c) (fun _ => keeps) fun _ => keeps := by
  rw [Registry.make]
  -- the constructions of hooks keep it as well, by induction on the nesting
  induction nestingLimit generalizing c with
  | zero => exact .giveUp fun _ => id
  | succ depth ih =>
      cases c with
      | constant | leaf => exact fresh
      | apply | applyFor =>
          exact Triple.bind (m := fun _ => keeps) (.ofExcept (fun _ _ _ => id) fun _ _ _ => id)
            fun d => buildWith_keeps fresh simplified ih d _

end

/-- Identities are handed out in increasing order. -/
theorem make_advances (r : Registry K) (c : Construction K) (next : NodeId) :
    Triple (next ≤ ·.nextId) (r.make c) (fun _ w => next ≤ w.nextId) fun _ w => next ≤ w.nextId :=
  make_keeps (fun (w : Workspace K) (later : next ≤ w.nextId) => Nat.le_succ_of_le later)
    (fun _ _ _ => id) r c

/-! ## What construction tells -/

/-- Since some past only events of a kind have been told. -/
def ToldSince (past : List (Event K)) (kind : Event K → Prop) (w : Workspace K) : Prop :=
  ∃ more, (∀ event ∈ more, kind event) ∧ w.events.toList = past ++ more

section

variable {past : List (Event K)} {kind : Event K → Prop} {w : Workspace K}

theorem ToldSince.now (w : Workspace K) : ToldSince w.events.toList kind w :=
  ⟨[], fun _ h => absurd h List.not_mem_nil, (List.append_nil _).symm⟩

theorem ToldSince.push (h : ToldSince past kind w) {event : Event K} (same : kind event) :
    ToldSince past kind { w with events := w.events.push event } := by
  rcases h with ⟨more, all, told⟩
  refine ⟨more ++ [event], List.forall_mem_append.2 ⟨all, List.forall_mem_singleton.2 same⟩, ?_⟩
  rw [Array.toList_push, told, List.append_assoc]

/-- Construction tells of simplifications only. -/
theorem make_tells (simplified : ∀ s n, kind (.simplified s n)) (r : Registry K)
    (c : Construction K) :
    Triple (ToldSince past kind) (r.make c) (fun _ => ToldSince past kind)
      fun _ => ToldSince past kind :=
  make_keeps (fun _ => id) (fun s n _ told => told.push (simplified s n)) r c

end

end SymbolicLinalg
