import SymbolicLinalg.Proofs.Rederivation
import SymbolicLinalg.Proofs.Relowering
import SymbolicLinalg.Proofs.Session
import SymbolicLinalg.Proofs.Thrift

/-!
# Reuse — a pass that is used over and over

A lowering pass, or one that differentiates by a leaf, may be kept and asked for one expression after
the other, while more expressions are made.  Every request is answered as if it was the only one, or
refused for the same reason; what has been answered once is answered alike ever after; and nothing is
visited twice that could be lowered or differentiated.

* `Use`: a pass in use, and `Use.Step`: what may happen in the meantime;
* `Minds`: what a pass minds, which is the invariant of its use;
* `Use.Reachable.reused_as_alone`: the pass may be reused freely.
-/

namespace SymbolicLinalg

variable {K : Type} [Arithmetic K]

/-- What a pass of this kind makes of a node, if it is used for this node alone. -/
def OpenPass.alone [Numeral K] (r : Registry K) (pass : OpenPass K) (n : Node K) :
    Work K (Node K) :=
  match pass.wrt? with
  | none => r.lower n
  | some wrt => r.derivative n wrt

namespace Node

variable {given more : List (Node K)} {next : NodeId}

omit [Arithmetic K] in
/-- Coherent nodes stay coherent beside others, if these are made of them and of new nodes. -/
theorem Coherent.append (h : Coherent given) (others : Coherent more)
    (older : ∀ n ∈ given, n.Older next)
    (new : ∀ x, Below more x → Below given x ∨ next ≤ x.id) : Coherent (given ++ more) := by
  have parts (k : Node K) (hk : k ∈ given ++ more) (x : Node K) (hx : k.Reaches x) :
      Below given x ∨ Below more x :=
    (List.mem_append.1 hk).imp (fun hk => ⟨k, hk, hx⟩) fun hk => ⟨k, hk, hx⟩
  have apart {x y : Node K} (hx : Below given x) (hy : Below more y) (same : x.id = y.id) :
      x = y := by
    rcases new y hy with hy | later
    · exact h.eq_of_id_eq hx hy same
    · rcases hx with ⟨k, hk, hx⟩
      exact absurd (older k hk x hx) (Nat.not_lt.2 (same ▸ later))
  intro k hk l hl x y hx hy same
  rcases parts k hk x hx with hx | hx <;> rcases parts l hl y hy with hy | hy
  · exact h.eq_of_id_eq hx hy same
  · exact apart hx hy same
  · exact (apart hy hx same.symm).symm
  · exact others.eq_of_id_eq hx hy same

end Node

namespace Standard

variable [Numeral K]

/-! ## A pass in use -/

/-- A pass that is kept open, the workspace it works in, the expressions at hand, and how often the
pass has visited nodes. -/
structure Use (K : Type) where
  pass : OpenPass K
  workspace : Workspace K
  nodes : List (Node K)
  visits : NodeId → Nat

namespace Use

/-- The pass is asked for a node.  What it answers is at hand afterwards. -/
def request (u : Use K) (n : Node K) : Except Fault (Node K) × Use K :=
  match (u.pass.visit Registry.standard n).run.run (u.workspace, u.pass.memo) with
  | (outcome, (w, memo)) => (outcome, {
      pass := { u.pass with memo }
      workspace := w
      nodes := outcome.toOption.toList ++ u.nodes
      visits := fun id => u.visits id + (w.visits id - u.workspace.visits id) })

/-- More expressions come to be, of those at hand and of new nodes. -/
structure Grows (nodes more : List (Node K)) (next later : NodeId) : Prop where
  sub : nodes ⊆ more
  after : next ≤ later
  around : Around (Registry.standard : Registry K) (generators K ++ more) later
  new : ∀ x, Node.Below more x → Node.Below nodes x ∨ next ≤ x.id

/-- The pass is asked for an expression at hand, or other work is done. -/
inductive Step : Use K → Use K → Prop where
  | request {u : Use K} {n : Node K} : Node.Below u.nodes n → Step u (u.request n).2
  | meanwhile {u : Use K} {w : Workspace K} {more : List (Node K)} :
      Grows u.nodes more u.workspace.nextId w.nextId →
      Step u { u with workspace := w, nodes := more }

/-- A pass starts with nothing remembered; if it differentiates, then by a leaf. -/
inductive Reachable : Use K → Prop where
  | start {wrt? : Option (Node K)} {w : Workspace K} {nodes : List (Node K)} :
      (∀ wrt ∈ wrt?, wrt.isLeaf = true) →
      Around (Registry.standard : Registry K) (generators K ++ nodes) w.nextId →
      Reachable ⟨⟨wrt?, ∅⟩, w, nodes, fun _ => 0⟩
  | step {u u' : Use K} : Reachable u → u.Step u' → Reachable u'

end Use

variable {wrt? : Option (Node K)} {wrt n m : Node K} {nodes more : List (Node K)}
  {w w' : Workspace K} {memo : Memo K} {s : Workspace K × Memo K}

/-! ## Well-typed nodes as composed ones -/

theorem composed_typed : n.Composed Typed (Registry.standard : Registry K) ↔ Typed n := by
  constructor
  · intro composed
    induction n using Node.induct with
    | constant | leaf => exact composed.plain _ (.refl _) rfl
    | application id s operands ih =>
        rcases composed.applied id s operands (.refl _) with ⟨known, shapes⟩
        exact .application id known shapes fun m hm =>
          ih m hm (composed.of_reaches (.of_mem_operands hm))
  · intro typed
    refine ⟨fun id s operands below => ?_, fun x below _ => typed.of_reaches below⟩
    cases typed.of_reaches below with
    | application _ known shapes _ => exact ⟨known, shapes⟩

omit [Numeral K] in
theorem makes_of_complete [Numeral K] {ρ σ α : Type} {recipe : Recipe K ρ σ α}
    (h : recipe.Complete) : recipe.Makes Typed := by
  induction recipe with
  | done _ | refuse _ => trivial
  | make c next ih =>
      refine ⟨?_, fun n => ih n (h.2 n)⟩
      cases c with
      | constant v => exact fun id => .constant id h.1
      | leaf name shape => exact fun id => .leaf id name shape
      | apply | applyFor => trivial
  | ask request next ih => exact fun answer => ih answer (h answer)

theorem standard_constructs : (Registry.standard : Registry K).Constructs Typed (generators K) where
  draws d hd name optimize hook operands given _ below :=
    standard_thrifty.optimize d hd name optimize hook operands given (List.nil_subset _) below
  simplifies d hd optimize hook operands composed shapes :=
    makes_of_complete (standard_completes d hd optimize hook operands
      (fun m hm => composed_typed.1 (composed m hm)) shapes)
  composed n hn := composed_typed.2 (typed_generators n hn)

theorem standard_derives (wrt : Node K) :
    (Registry.standard : Registry K).Derives Typed (generators K) wrt where
  deriv hook _ _ held below :=
    have thrift := standard_thrifty.deriv hook held below
    ⟨thrift.draws, makes_of_complete thrift.complete⟩
  zero s id := .constant id (Literal.hasShape_zero s).complete
  one s id := .constant id (Literal.hasShape_one s).complete

/-! ## The invariant -/

/-- What a pass minds while it is in use.  All it remembers is what it would find out again, and the
nodes that it remembers are coherent with those at hand. -/
def Minds : Option (Node K) → List (Node K) → Workspace K × Memo K → Prop
  | none, nodes, s =>
      ∃ given, Recalls (relowered fun _ => .zero .scalar) IsPlain given (generators K ++ nodes) s
  | some wrt, nodes, s =>
      Recollects wrt nodes s.2 ∧ ∃ pool, generators K ++ nodes ⊆ pool ∧
        Recalls (alike Typed (Registry.standard : Registry K)) Registry.anyName pool [] s

theorem minds_start
    (around : Around (Registry.standard : Registry K) (generators K ++ nodes) w.nextId) :
    Minds wrt? nodes (w, ∅) := by
  cases wrt? with
  | none => exact ⟨[], .empty ⟨around.coherent, around.older, by simp⟩⟩
  | some wrt => exact ⟨.empty wrt nodes, _, List.Subset.refl _, .empty around.stock⟩

/-- Nothing has to be forgotten when more expressions come to be. -/
theorem minds_grown (h : Minds wrt? nodes (w, memo))
    (grows : Use.Grows nodes more w.nextId w'.nextId) : Minds wrt? more (w', memo) := by
  have known : generators K ++ nodes ⊆ generators K ++ more :=
    List.append_subset.2 ⟨List.subset_append_left _ _,
      List.subset_append_of_subset_right _ grows.sub⟩
  -- what is new has identities that no node in the pool of the pass has
  have append {pool : List (Node K)} (sub : generators K ++ nodes ⊆ pool)
      (coherent : Node.Coherent pool) (older : ∀ n ∈ pool, n.Older w.nextId) :
      Node.Coherent (pool ++ (generators K ++ more)) := by
    refine coherent.append grows.around.coherent older fun x hx => ?_
    rcases hx with ⟨k, hk, hx⟩
    rcases List.mem_append.1 hk with hk | hk
    · exact .inl ⟨k, sub (List.mem_append_left nodes hk), hx⟩
    · refine (grows.new x ⟨k, hk, hx⟩).imp_left fun below => ?_
      exact below.mono fun n hn => sub (List.mem_append_right _ hn)
  cases wrt? with
  | none =>
      rcases h with ⟨given, recalls⟩
      refine ⟨given, recalls.beside known ⟨?_, ?_, recalls.stock.only⟩⟩
      · refine (append (List.subset_append_right given _) recalls.stock.coherent
          recalls.stock.older).of_below fun n hn => .of_mem ?_
        exact (List.append_subset.2 ⟨List.subset_append_of_subset_left _
          (List.subset_append_left given _), List.subset_append_right _ _⟩) hn
      · refine List.forall_mem_append.2 ⟨fun n hn => ?_, grows.around.older⟩
        exact (recalls.stock.older n (List.mem_append_left _ hn)).mono grows.after
  | some wrt =>
      rcases h with ⟨recollects, pool, sub, recalls⟩
      refine ⟨recollects.mono fun x below => below.mono grows.sub, pool ++ (generators K ++ more),
        List.subset_append_right _ _, recalls.mono (List.subset_append_left _ _) ?_⟩
      have older (n : Node K) (hn : n ∈ pool) : n.Older w.nextId :=
        recalls.stock.older n (List.mem_append_left [] hn)
      exact .of_coherent (append sub recalls.stock.coherent_given older)
        (List.forall_mem_append.2 ⟨fun n hn => (older n hn).mono grows.after, grows.around.older⟩)

/-! ## Requests -/

/-- The nodes of an identity of which the pass, if it was used for them alone, would be refused. -/
def Refused (wrt? : Option (Node K)) (nodes : List (Node K)) (id : NodeId) : Prop :=
  ∃ x, Node.Below nodes x ∧ x.id = id ∧ ∃ f, ∀ w : Workspace K, x.Older w.nextId →
    ((OpenPass.alone Registry.standard ⟨wrt?, ∅⟩ x).runIn w).1 = .error f

/-- A request for a node in a state of a pass, and what comes of it. -/
structure Answers (wrt? : Option (Node K)) (nodes : List (Node K)) (n : Node K)
    (s : Workspace K × Memo K) (outcome : Except Fault (Node K)) (s' : Workspace K × Memo K) :
    Prop where
  minds : Minds wrt? (outcome.toOption.toList ++ nodes) s'
  typed : ∀ m ∈ outcome.toOption, Typed m
  alone : ∀ w : Workspace K, n.Older w.nextId →
    SameOutcome outcome ((OpenPass.alone Registry.standard ⟨wrt?, ∅⟩ n).runIn w).1
  progress : Progress (fun _ => True) (Refused wrt? nodes) s s'
  /-- Whoever remembers as much answers alike, and does nothing else. -/
  settled : ∀ m, outcome = .ok m → ∀ (w : Workspace K) (memo : Memo K),
    (∀ (id : NodeId) (k : Node K), s'.2[id]? = some k → memo[id]? = some k) →
    (OpenPass.visit Registry.standard ⟨wrt?, ∅⟩ n).run.run (w, memo) = (.ok m, (w, memo))

/-- A node for itself is differentiated as it is without a memory. -/
theorem derivative_alone (leaf : wrt.isLeaf = true) (coherent : Node.Coherent nodes)
    (below : Node.Below nodes n) {outcome : Except Fault (Node K)}
    (anew : DerivedAnew wrt n outcome) (w : Workspace K) :
    SameOutcome outcome ((OpenPass.alone Registry.standard ⟨some wrt, ∅⟩ n).runIn w).1 := by
  have accepted : Registry.checkVariable wrt = .ok () := if_pos leaf
  have single : Node.Coherent [n] := coherent.of_below (List.forall_mem_singleton.2 below)
  have fresh := deriveWith_anew ((Registry.standard : Registry K).deriveWithin wrt (nestingLimit - 1))
    single (.of_mem List.mem_cons_self) (w, ∅) (Recollects.empty wrt [n])
  rw [← Registry.deriveNext_eq] at fresh
  change SameOutcome outcome (((Registry.standard : Registry K).derivative n wrt).runIn w).1
  rw [Registry.derivative, accepted, Work.runIn_bind, Work.runIn_ofExcept_ok]
  dsimp only
  rw [Work.runIn_starting]
  revert fresh
  rcases ((Registry.standard : Registry K).deriveNext wrt n).run.run (w, ∅) with ⟨_ | _, _⟩
  · exact fun fresh => (anew (w, ∅)).trans (fresh.1 (w, ∅)).symm
  · exact fun fresh => (anew (w, ∅)).trans (fresh.1 (w, ∅)).symm

/-- What a pass has remembered for a node is its answer. -/
theorem deriveNext_known (known : memo[n.id]? = some m) :
    ((Registry.standard : Registry K).deriveNext wrt n).run.run (w, memo) =
      (.ok m, (w, memo)) := by
  have looked : (Pass.known? n.id : Pass K (Option (Node K))).run.run (w, memo) =
      (.ok (some m), (w, memo)) := by
    rw [← known]
    rfl
  rw [Registry.deriveNext_eq, Registry.deriveWith, ExceptT.run_bind, StateT.run_bind, looked]
  rfl

/-- The pass that differentiates. -/
theorem deriving_answers (leaf : wrt.isLeaf = true) (minds : Minds (some wrt) nodes s)
    (typed : Typed n) (below : Node.Below nodes n) {outcome : Except Fault (Node K)}
    {s' : Workspace K × Memo K}
    (run : ((Registry.standard : Registry K).deriveNext wrt n).run.run s = (outcome, s')) :
    Answers (some wrt) nodes n s outcome s' := by
  rcases minds with ⟨recollects, pool, sub, recalls⟩
  have coherent : Node.Coherent nodes := recalls.stock.coherent_given.of_below fun n hn =>
    .of_mem (sub (List.mem_append_right _ hn))
  have refused (id : NodeId) (fails : Fails wrt nodes id) : Refused (some wrt) nodes id := by
    rcases fails with ⟨x, below, same, f, anew⟩
    refine ⟨x, below, same, f, fun w _ => ?_⟩
    have alone := derivative_alone leaf coherent below anew w
    generalize ((OpenPass.alone Registry.standard ⟨some wrt, ∅⟩ x).runIn w).1 = outcome at alone
    cases alone
    rfl
  have around : Node.Below (pool ++ []) n := by
    rw [List.append_nil]
    exact below.mono fun n hn => sub (List.mem_append_right _ hn)
  -- what is found, how far the pass has come, and which nodes it has made
  have anew := deriveWith_anew ((Registry.standard : Registry K).deriveWithin wrt (nestingLimit - 1))
    coherent below s recollects
  have progress := deriveWith_progress
    ((Registry.standard : Registry K).deriveWithin wrt (nestingLimit - 1)) coherent below recollects
  have made := Registry.deriveNext_alike standard_constructs
    (List.Subset.trans (List.subset_append_left _ _) sub) (standard_derives wrt)
    (composed_typed.2 typed) pool (List.Subset.refl pool) around s recalls
  rw [← Registry.deriveNext_eq, run] at anew progress
  rw [run] at made
  cases outcome with
  | error f =>
      rcases made with ⟨more, grown, recalls⟩
      exact {
        minds := ⟨anew.2, more, List.Subset.trans sub grown, recalls⟩
        typed := nofun
        alone := fun w _ => derivative_alone leaf coherent below anew.1 w
        progress := Progress.imp progress (fun _ _ => trivial) refused
        settled := nofun }
  | ok m =>
      rcases made with ⟨more, grown, ⟨drawn, composed, _⟩, recalls⟩
      have wider := List.subset_cons_self m more
      have held : generators K ++ (m :: nodes) ⊆ m :: more := by
        refine List.append_subset.2 ⟨?_, List.cons_subset_cons m ?_⟩
        · exact List.Subset.trans (List.append_subset.1 (List.Subset.trans sub grown)).1 wider
        · exact (List.append_subset.1 (List.Subset.trans sub grown)).2
      exact {
        minds := ⟨anew.2.mono fun x hx => hx.mono (List.subset_cons_self m nodes), m :: more, held,
          recalls.mono wider (recalls.stock.cons_of_below drawn)⟩
        typed := fun k hk => Option.some.inj hk ▸ composed_typed.1 composed
        alone := fun w _ => derivative_alone leaf coherent below anew.1 w
        progress := progress.2.imp (fun _ _ => trivial) refused
        settled := fun k same w memo kept => by
          obtain rfl := Except.ok.inj same
          exact deriveNext_known (kept _ _ progress.1) }

/-- A node for itself is lowered as it is without a memory. -/
theorem lower_alone (typed : Typed n) (coherent : Node.Coherent nodes) (below : Node.Below nodes n)
    (anew : LoweredAnew n m) (w : Workspace K) (older : n.Older w.nextId) :
    SameOutcome (.ok m) ((OpenPass.alone Registry.standard ⟨none, ∅⟩ n).runIn w).1 := by
  have single : Node.Coherent [n] := coherent.of_below (List.forall_mem_singleton.2 below)
  have stock : Stock IsPlain [] [n] w.nextId := ⟨single, List.forall_mem_singleton.2 older, by simp⟩
  have fresh := lowerNext_relowers (ρ := fun _ => .zero .scalar) typed [] (w, ∅)
    (.of_mem List.mem_cons_self) (.empty stock)
  change SameOutcome (.ok m) (((Registry.standard : Registry K).lower n).runIn w).1
  rw [Registry.lower, Work.runIn_starting]
  revert fresh
  rcases ((Registry.standard : Registry K).lowerNext n).run.run (w, ∅) with ⟨_ | k, _⟩
  · exact False.elim
  · rintro ⟨_, _, form, _⟩
    -- both have the tree that lowering without a memory comes to
    have first := anew w trivial
    have second := form.anew w trivial
    revert first second
    rcases ((Registry.standard : Registry K).lowerAnew n).run.run w with ⟨_ | d, _⟩
    · exact False.elim
    · exact fun first second => .value (second.symm.trans first)

/-- What a pass has remembered for an application is its answer; anything else it leaves alone. -/
theorem lowerNext_known (known : n.isApplication = true → memo[n.id]? = some m)
    (plain : n.isApplication = false → m = n) :
    ((Registry.standard : Registry K).lowerNext n).run.run (w, memo) = (.ok m, (w, memo)) := by
  rw [Registry.lowerNext_eq]
  cases n with
  | constant | leaf =>
      rw [Registry.lowerWith, plain rfl]
      rfl
  | application id s operands =>
      have looked : (Pass.known? id : Pass K (Option (Node K))).run.run (w, memo) =
          (.ok (some m), (w, memo)) := by
        rw [← known rfl]
        rfl
      rw [Registry.lowerWith_application, ExceptT.run_bind, StateT.run_bind, looked]
      rfl

/-- The pass that lowers. -/
theorem lowering_answers (minds : Minds none nodes s) (typed : Typed n)
    (below : Node.Below nodes n) {outcome : Except Fault (Node K)} {s' : Workspace K × Memo K}
    (run : ((Registry.standard : Registry K).lowerNext n).run.run s = (outcome, s')) :
    Answers none nodes n s outcome s' := by
  rcases minds with ⟨given, recalls⟩
  have known : nodes ⊆ given ++ (generators K ++ nodes) :=
    List.subset_append_of_subset_right _ (List.subset_append_right _ _)
  have coherent : Node.Coherent nodes :=
    recalls.stock.coherent.of_below fun n hn => .of_mem (known hn)
  have lowered := lowerNext_relowers (ρ := fun _ => .zero .scalar) typed given s (below.mono known)
    recalls
  rw [run] at lowered
  cases outcome with
  | error f => exact lowered.elim
  | ok m =>
      rcases lowered with ⟨more, sub, form, recalls, progress, known⟩
      have around : ∀ k ∈ more ++ (generators K ++ m :: nodes),
          Node.Below (more ++ (generators K ++ nodes)) k := by
        refine List.forall_mem_append.2 ⟨fun k hk => .of_mem (List.mem_append_left _ hk),
          List.forall_mem_append.2 ⟨fun k hk => .of_mem ?_, List.forall_mem_cons.2 ⟨?_, ?_⟩⟩⟩
        · exact List.mem_append_right _ (List.mem_append_left _ hk)
        · exact form.form.below.mono (List.subset_append_left _ _)
        · exact fun k hk => .of_mem (List.mem_append_right _ (List.mem_append_right _ hk))
      have stock : Stock IsPlain more (generators K ++ m :: nodes) s'.1.nextId :=
        ⟨recalls.stock.coherent.of_below around,
          fun k hk => recalls.stock.older_of_below (around k hk), recalls.stock.only⟩
      exact {
        minds := ⟨more, recalls.beside (List.append_subset.2 ⟨List.subset_append_left _ _,
          List.subset_append_of_subset_right _ (List.subset_cons_self m nodes)⟩) stock⟩
        typed := fun k hk => Option.some.inj hk ▸ form.form.denotes.typed
        alone := fun w older => lower_alone typed coherent below form.anew w older
        progress := progress.imp (fun _ _ => trivial) fun _ => False.elim
        settled := fun k same w memo kept => by
          obtain rfl := Except.ok.inj same
          exact lowerNext_known (fun application => kept _ _ (known application))
            fun plain => form.kept (Node.appliesOnly_of_plain plain) }

/-! ## Use -/

namespace Use

variable {u u' : Use K}

/-- The invariant of a pass in use: a node has been visited once, if anything has been found out about
it, and never, if nothing has; unless the pass is refused of it. -/
structure Sound (u : Use K) : Prop where
  leaf : ∀ wrt ∈ u.pass.wrt?, wrt.isLeaf = true
  typed : ∀ n ∈ u.nodes, Typed n
  minds : Minds u.pass.wrt? u.nodes (u.workspace, u.pass.memo)
  visits : ∀ id, Refused u.pass.wrt? u.nodes id ∨ u.visits id = 0 ∨
    u.visits id = 1 ∧ ∃ m, u.pass.memo[id]? = some m

/-- What a request does, whichever pass it is made of. -/
theorem Sound.answers (sound : u.Sound) (below : Node.Below u.nodes n) :
    Answers u.pass.wrt? u.nodes n (u.workspace, u.pass.memo) (u.request n).1
      ((u.request n).2.workspace, (u.request n).2.pass.memo) := by
  rcases below with ⟨k, hk, reached⟩
  have typed : Typed n := (sound.typed k hk).of_reaches reached
  rcases u with ⟨⟨wrt?, memo⟩, w, nodes, visits⟩
  cases wrt? with
  | none => exact lowering_answers sound.minds typed ⟨k, hk, reached⟩ rfl
  | some wrt => exact deriving_answers (sound.leaf wrt rfl) sound.minds typed ⟨k, hk, reached⟩ rfl

theorem Refused.mono {id : NodeId} (h : Refused wrt? nodes id)
    (sub : ∀ x, Node.Below nodes x → Node.Below more x) : Refused wrt? more id := by
  rcases h with ⟨x, below, same, refused⟩
  exact ⟨x, sub x below, same, refused⟩

/-- Visits are counted on from where the workspace stood before. -/
theorem counted_request (u : Use K) (n : Node K) (id : NodeId) :
    (u.request n).2.visits id =
      u.visits id + ((u.request n).2.workspace.visits id - u.workspace.visits id) := rfl

theorem Sound.request (sound : u.Sound) (below : Node.Below u.nodes n) :
    (u.request n).2.Sound := by
  have answers := sound.answers below
  have grown : u.nodes ⊆ (u.request n).2.nodes := List.subset_append_right _ _
  refine ⟨sound.leaf, ?_, answers.minds, fun id => ?_⟩
  · refine List.forall_mem_append.2 ⟨fun m hm => answers.typed m ?_, sound.typed⟩
    rwa [Option.mem_toList] at hm
  have refused (h : Refused u.pass.wrt? u.nodes id) :
      Refused u.pass.wrt? (u.request n).2.nodes id :=
    Refused.mono h fun x hx => hx.mono grown
  rw [counted_request]
  rcases sound.visits id with excused | counted
  · exact .inl (refused excused)
  rcases answers.progress.visits id with same | ⟨_, unknown, excused | ⟨once, known⟩⟩
  · -- no visit has been made
    dsimp only at same
    rw [same, Nat.sub_self, Nat.add_zero]
    refine .inr (counted.imp_right fun ⟨one, m, known⟩ => ⟨one, m, ?_⟩)
    exact answers.progress.kept known
  · exact .inl (refused excused)
  · -- one visit has been made, and nothing was known before
    dsimp only at once unknown
    rcases counted with none | ⟨_, m, found⟩
    · refine .inr (.inr ⟨?_, known⟩)
      rw [none, once, Nat.add_sub_cancel_left]
    · exact absurd (found.symm.trans unknown) (Option.some_ne_none m)

theorem Sound.meanwhile {w : Workspace K} (sound : u.Sound)
    (grows : Grows u.nodes more u.workspace.nextId w.nextId) :
    Sound { u with workspace := w, nodes := more } where
  leaf := sound.leaf
  typed n hn := grows.around.typed n (List.mem_append_right _ hn)
  minds := minds_grown sound.minds grows
  visits id := (sound.visits id).imp_left fun h => Refused.mono h fun _ hx => hx.mono grows.sub

theorem Reachable.sound (h : u.Reachable) : u.Sound := by
  induction h with
  | start leaf around =>
      exact ⟨leaf, fun n hn => around.typed n (List.mem_append_right _ hn), minds_start around,
        fun _ => .inr (.inl rfl)⟩
  | step _ step sound =>
      cases step with
      | request below => exact sound.request below
      | meanwhile grows => exact sound.meanwhile grows

/-- Lowering is refused of nothing, so a pass that lowers visits no node twice. -/
theorem Sound.visits_le_one (sound : u.Sound) (lowers : u.pass.wrt? = none) (id : NodeId) :
    u.visits id ≤ 1 := by
  rcases u with ⟨⟨wrt?, memo⟩, w, nodes, visits⟩
  obtain rfl : wrt? = none := lowers
  rcases sound.visits id with ⟨x, ⟨k, hk, reached⟩, _, f, refused⟩ | counted
  · have typed : Typed x := (sound.typed k hk).of_reaches reached
    rcases sound.minds with ⟨given, recalls⟩
    have known : k ∈ given ++ (generators K ++ nodes) :=
      List.mem_append_right _ (List.mem_append_right _ hk)
    have single : Node.Coherent [x] :=
      recalls.stock.coherent.of_below (List.forall_mem_singleton.2 ⟨k, known, reached⟩)
    have older : x.Older w.nextId := recalls.stock.older_of_below ⟨k, known, reached⟩
    -- lowered for itself, the node would not be refused
    have some_assignment : Assignment K := fun _ => .zero .scalar
    rcases (lower_triple (ρ := some_assignment) typed single List.mem_cons_self).runIn_eq_ok
      (List.forall_mem_singleton.2 older) with ⟨m, w', run, _⟩
    have alone : (((Registry.standard : Registry K).lower x).runIn w).1 = .error f :=
      refused w older
    rw [run] at alone
    exact absurd alone nofun
  · dsimp only at counted ⊢
    omega

/-- What has been remembered stays so. -/
theorem kept_later (sound : u.Sound) (later : Relation.ReflTransGen Step u u') :
    u'.Sound ∧ u'.pass.wrt? = u.pass.wrt? ∧
      ∀ (id : NodeId) (m : Node K), u.pass.memo[id]? = some m → u'.pass.memo[id]? = some m := by
  induction later with
  | refl => exact ⟨sound, rfl, fun _ _ known => known⟩
  | tail _ step ih =>
      rcases ih with ⟨sound, same, kept⟩
      cases step with
      | request below =>
          exact ⟨sound.request below, same, fun id m known =>
            (sound.answers below).progress.kept (kept id m known)⟩
      | meanwhile grows => exact ⟨sound.meanwhile grows, same, kept⟩

/-- A pass may be reused freely.  In every use of it, each request is answered with the tree that the
pass comes to if it is used for this node alone, or refused for the same reason.  Once a request has
been answered, the same node is the answer ever after, and nothing is done for it.  And no node is
visited twice, unless the pass is refused of the node. -/
theorem Reachable.reused_as_alone (h : u.Reachable) :
    (∀ n, Node.Below u.nodes n → ∀ w : Workspace K, n.Older w.nextId →
      SameOutcome (u.request n).1 ((u.pass.alone Registry.standard n).runIn w).1) ∧
    (∀ n m, Node.Below u.nodes n → (u.request n).1 = .ok m →
      ∀ u', Relation.ReflTransGen Step (u.request n).2 u' →
        u'.request n = (.ok m, { u' with nodes := m :: u'.nodes })) ∧
    ∀ id, u.visits id ≤ 1 ∨ ∃ x, Node.Below u.nodes x ∧ x.id = id ∧
      ∃ f, ∀ w : Workspace K, x.Older w.nextId →
        ((u.pass.alone Registry.standard x).runIn w).1 = .error f := by
  have sound := h.sound
  refine ⟨fun n below w older => ?_, fun n m below answered u' later => ?_, fun id => ?_⟩
  · exact (sound.answers below).alone w older
  · have answers := sound.answers below
    rcases kept_later (sound.request below) later with ⟨_, same, kept⟩
    have settled := answers.settled m answered u'.workspace u'.pass.memo kept
    have visited : (u'.pass.visit Registry.standard n).run.run (u'.workspace, u'.pass.memo) =
        (.ok m, (u'.workspace, u'.pass.memo)) := by
      have same : u'.pass.wrt? = u.pass.wrt? := same
      rw [← same] at settled
      exact settled
    rw [Use.request, visited]
    simp only [Nat.sub_self, Nat.add_zero]
    rfl
  · rcases sound.visits id with refused | counted
    · exact .inr refused
    · exact .inl (by omega)

/-- A derivative that is asked for after another could not be found, and an expression that is lowered
twice. -/
theorem Reachable.reused_as_alone_refused :
    let x : Node ℚ := .leaf 4 "x" .scalar
    let p : Node ℚ := .leaf 5 "p" .vec4
    let cartesian : Node ℚ := .application 6 ⟨.vec3, "fromHomo", [.vec4]⟩ [p]
    let square : Node ℚ := .application 7 ⟨.scalar, "*", [.scalar, .scalar]⟩ [x, x]
    let start : Use ℚ := ⟨⟨some x, ∅⟩, ⟨8, #[]⟩, [cartesian, square, p, x], fun _ => 0⟩
    let u : Use ℚ := (start.request cartesian).2
    let lowering : Use ℚ := ⟨⟨none, ∅⟩, ⟨8, #[]⟩, [cartesian, square, p, x], fun _ => 0⟩
    let v : Use ℚ := (lowering.request cartesian).2
    ((start.request cartesian).1 =
        .error (.error (.missingHook ⟨.vec3, "fromHomo", [.vec4]⟩ "deriv" "derivative")) ∧
      SameOutcome (u.request square).1
        (((Registry.standard : Registry ℚ).derivative square x).runIn ⟨8, #[]⟩).1 ∧
      (∀ m, (u.request square).1 = .ok m → ((u.request square).2.request square).1 = .ok m) ∧
      ∀ id, u.visits id ≤ 1 ∨ ∃ y, Node.Below u.nodes y ∧ y.id = id ∧
        ∃ f, ∀ w : Workspace ℚ, y.Older w.nextId →
          (((Registry.standard : Registry ℚ).derivative y x).runIn w).1 = .error f) ∧
    ∃ m k w', (lowering.request cartesian).1 = .ok m ∧
      ((Registry.standard : Registry ℚ).lower cartesian).runIn ⟨8, #[]⟩ = (.ok k, w') ∧
      m.SameTree k ∧ v.request cartesian = (.ok m, { v with nodes := m :: v.nodes }) ∧
      ∀ id, v.visits id ≤ 1 := by
  intro x p cartesian square start u lowering v
  have typedCartesian : Typed cartesian :=
    typed_application .fromHomogeneous 6 rfl (List.forall_mem_singleton.2 (.leaf 5 "p" .vec4))
  have typedSquare : Typed square :=
    typed_application .multiplication 7 rfl
      (List.forall_mem_cons.2 ⟨.leaf 4 "x" .scalar, List.forall_mem_singleton.2 (.leaf 4 "x" .scalar)⟩)
  let nodes := generators ℚ ++ [cartesian, square, p, x]
  have closed : ∀ n ∈ nodes, ∀ m ∈ n.operands, m ∈ nodes := by
    simp [nodes, generators, axisRotations, cartesian, square, p, x]
  have distinct : (nodes.map Node.id).Nodup := by
    simp [nodes, generators, axisRotations, cartesian, square, p, x]
  have early : ∀ n ∈ nodes, n.id < 8 := by
    simp [nodes, generators, axisRotations, cartesian, square, p, x]
  have older (n : Node ℚ) (hn : n ∈ nodes) : n.Older 8 := fun y below =>
    early y (below.mem_of_closed closed hn)
  have around : Around (Registry.standard : Registry ℚ) nodes 8 :=
    { coherent := .of_closed closed distinct
      older := older
      typed := List.forall_mem_append.2 ⟨typed_generators, List.forall_mem_cons.2 ⟨typedCartesian,
        List.forall_mem_cons.2 ⟨typedSquare, List.forall_mem_cons.2 ⟨.leaf 5 "p" .vec4,
          List.forall_mem_singleton.2 (.leaf 4 "x" .scalar)⟩⟩⟩⟩ }
  have first : Node.Below start.nodes cartesian := .of_mem List.mem_cons_self
  refine ⟨?derived, ?lowered⟩
  case derived =>
    have reachable : u.Reachable :=
      .step (.start (by simp [x, Node.isLeaf]) around) (.request first)
    have second : Node.Below u.nodes square :=
      .of_mem (List.mem_append_right _ (List.mem_cons_of_mem _ List.mem_cons_self))
    rcases reachable.reused_as_alone with ⟨alone, again, once⟩
    refine ⟨?_, alone square second ⟨8, #[]⟩ (older square (by simp [nodes])), fun m answered => ?_,
      once⟩
    · -- the operator has no hook that differentiates it
      have unhooked : ((Registry.standard : Registry ℚ).hooks
          ⟨.vec3, "fromHomo", [.vec4]⟩).deriv = none :=
        congrArg Hooks.deriv Operator.fromHomogeneous.hooks_eq
      change (((Registry.standard : Registry ℚ).deriveNext x cartesian).run.run (⟨8, #[]⟩, ∅)).1 = _
      rw [Registry.deriveNext_eq, Registry.deriveWith_application, remembering_run,
        Std.HashMap.getElem?_empty, Registry.differentiate, unhooked]
      rfl
    · rw [again square m second answered _ .refl]
  case lowered =>
    have reachable : lowering.Reachable := .start (by simp) around
    have later : v.Reachable := .step reachable (.request first)
    rcases reachable.reused_as_alone with ⟨alone, again, _⟩
    have single : Node.Coherent [cartesian] := around.coherent.of_subset (by simp [nodes])
    have some_assignment : Assignment ℚ := fun _ => .zero .scalar
    rcases (lower_triple (ρ := some_assignment) typedCartesian single List.mem_cons_self).runIn_eq_ok
      (w := ⟨8, #[]⟩) (List.forall_mem_singleton.2 (older cartesian (by simp [nodes]))) with
      ⟨k, w', run, _⟩
    have same : SameOutcome (lowering.request cartesian).1
        (((Registry.standard : Registry ℚ).lower cartesian).runIn ⟨8, #[]⟩).1 :=
      alone cartesian first ⟨8, #[]⟩ (older cartesian (by simp [nodes]))
    rw [run] at same
    generalize answered : (lowering.request cartesian).1 = outcome at same
    cases same with
    | value same =>
        exact ⟨_, k, w', rfl, run, same, again cartesian _ first answered v .refl,
          later.sound.visits_le_one rfl⟩

end Use

end Standard

end SymbolicLinalg
