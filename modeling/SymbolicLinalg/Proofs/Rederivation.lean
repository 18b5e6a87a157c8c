import SymbolicLinalg.Proofs.Derivation
import SymbolicLinalg.Proofs.Progress
import SymbolicLinalg.Proofs.SameTree

/-!
# Rederivation — differentiating with and without a memory

A pass that has differentiated other nodes before comes to the derivative that it would have found
without: what it remembers for a node is what differentiating the node without a memory comes to.
This is so after any number of nodes, also when some of them could not be differentiated.

* `Registry.deriveAnew`: differentiation that does not remember anything;
* `deriveWith_tandem`: the pass comes to the same, from whatever it remembers;
* `deriveWith_progress`: it differentiates nothing twice that has been differentiated.
-/

namespace SymbolicLinalg

variable {K : Type} [Arithmetic K]

namespace Registry

mutual

/-- Differentiates a node over and over, wherever it occurs. -/
def deriveAnew (r : Registry K) (wrt n : Node K) : Pass K (Node K) :=
  match n with
  | .constant _ value => Work.within (Node.newConstant (.zero value.shape))
  | .leaf id _ shape =>
      Work.within (Node.newConstant (if id = wrt.id then .one shape else .zero shape))
  | .application id s operands =>
      r.differentiate wrt id s operands
        (answerDerivative (derivesAnew r wrt operands) fun _ => throw .nesting)

/-- How each of a list of nodes is differentiated. -/
def derivesAnew (r : Registry K) (wrt : Node K) (nodes : List (Node K)) :
    List (NodeId × Pass K (Node K)) :=
  match nodes with
  | [] => []
  | n :: rest => (n.id, deriveAnew r wrt n) :: derivesAnew r wrt rest

end

variable {r : Registry K} {wrt n : Node K} {operands : List (Node K)}

theorem deriveWith_application (again : Node K → Pass K (Node K)) (id : NodeId) (s : Signature) :
    r.deriveWith wrt again (.application id s operands) = (do
      match ← Pass.known? id with
      | some known => return known
      | none =>
          let derived ← r.differentiate wrt id s operands
            (answerDerivative (derivesWith r wrt again operands) again)
          Pass.remember id derived
          return derived) := by
  rw [deriveWith]
  rfl

theorem answerDerivative_anew (hn : n ∈ operands) (unique : ∀ m ∈ operands, m.id = n.id → m = n)
    (again : Node K → Pass K (Node K)) :
    answerDerivative (derivesAnew r wrt operands) again n = deriveAnew r wrt n := by
  have map : derivesAnew r wrt operands = operands.map fun m => (m.id, deriveAnew r wrt m) := by
    clear hn unique
    induction operands with
    | nil => rfl
    | cons m rest ih => rw [derivesAnew, ih, List.map_cons]
  rw [answerDerivative, map, lookup_operand _ hn unique]

end Registry

omit [Arithmetic K] in
/-- Looks a node up, or else comes to something for it and remembers that. -/
theorem remembering_run (id : NodeId) (compute : Pass K (Node K)) (s : Workspace K × Memo K) :
    (do
      match ← Pass.known? id with
      | some known => return known
      | none =>
          let derived ← compute
          Pass.remember id derived
          return derived : Pass K (Node K)).run.run s =
      match s.2[id]?, compute.run.run s with
      | some m, _ => (.ok m, s)
      | none, (.ok m, s') => (.ok m, (s'.1, s'.2.insert id m))
      | none, (.error f, s') => (.error f, s') := by
  have looked : (Pass.known? id : Pass K (Option (Node K))).run.run s = (.ok s.2[id]?, s) := rfl
  rw [ExceptT.run_bind, StateT.run_bind, looked]
  cases s.2[id]? with
  | some m => rfl
  | none =>
      change StateT.run (ExceptT.run (compute >>= _)) s = _
      rw [ExceptT.run_bind, StateT.run_bind]
      rcases StateT.run (ExceptT.run compute) s with ⟨_ | m, s'⟩
      · rfl
      · rfl

omit [Arithmetic K] in
theorem remembering_settles {P : Workspace K × Memo K → Prop}
    {Q : Fault → Workspace K × Memo K → Prop} {id : NodeId} {compute : Pass K (Node K)}
    {start : Workspace K × Memo K} (known : P start)
    (h : start.2[id]? = none →
      Settles (fun m s => P (s.1, s.2.insert id m)) Q (compute.run.run start)) :
    Settles (fun m s => s.2[id]? = some m ∧ P s) Q
      ((do
        match ← Pass.known? id with
        | some known => return known
        | none =>
            let derived ← compute
            Pass.remember id derived
            return derived : Pass K (Node K)).run.run start) := by
  rw [remembering_run]
  cases found : start.2[id]? with
  | some m => exact ⟨found, known⟩
  | none =>
      have computed := h found
      revert computed
      rcases compute.run.run start with ⟨_ | m, s⟩
      · exact fun settled => settled
      · exact fun settled => ⟨Std.HashMap.getElem?_insert_self, settled⟩

namespace Standard

variable [Numeral K] {wrt n m : Node K} {nodes more : List (Node K)}

/-! ## The same derivatives -/

/-- What differentiating the node without a memory comes to, whatever the state. -/
def DerivedAnew (wrt n : Node K) (outcome : Except Fault (Node K)) : Prop :=
  ∀ s, SameOutcome outcome (((Registry.standard : Registry K).deriveAnew wrt n).run.run s).1

/-- Whatever is remembered is what differentiating one of the nodes without a memory comes to. -/
def Recollects (wrt : Node K) (nodes : List (Node K)) (memo : Memo K) : Prop :=
  ∀ id m, memo[id]? = some m → ∃ x, Node.Below nodes x ∧ x.id = id ∧ DerivedAnew wrt x (.ok m)

omit [Arithmetic K] [Numeral K] in
theorem Recollects.empty [Arithmetic K] [Numeral K] (wrt : Node K) (nodes : List (Node K)) :
    Recollects wrt nodes ∅ := by
  intro id m known
  rw [Std.HashMap.getElem?_empty] at known
  exact absurd known nofun

theorem Recollects.known {memo : Memo K} (h : Recollects wrt nodes memo)
    (coherent : Node.Coherent nodes) (below : Node.Below nodes n)
    (known : memo[n.id]? = some m) : DerivedAnew wrt n (.ok m) := by
  rcases h n.id m known with ⟨x, below', same, anew⟩
  rwa [← coherent.eq_of_id_eq below' below same]

theorem Recollects.remember {memo : Memo K} (h : Recollects wrt nodes memo)
    (below : Node.Below nodes n) (anew : DerivedAnew wrt n (.ok m)) :
    Recollects wrt nodes (memo.insert n.id m) := by
  intro id k known
  rw [Std.HashMap.getElem?_insert] at known
  split at known
  · rename_i same
    obtain rfl := Option.some.inj known
    exact ⟨n, below, beq_iff_eq.1 same, anew⟩
  · exact h id k known

theorem Recollects.mono {memo : Memo K} (h : Recollects wrt nodes memo)
    (sub : ∀ x, Node.Below nodes x → Node.Below more x) : Recollects wrt more memo := by
  intro id m known
  rcases h id m known with ⟨x, below, same, anew⟩
  exact ⟨x, sub x below, same, anew⟩

/-- The first run is that of a pass that recollects; of the other nothing is assumed. -/
abbrev Recollecting (wrt : Node K) (nodes : List (Node K)) (u : Timeless)
    (s s' : Workspace K × Memo K) : Prop :=
  (sameTrees K).Stands u s.1 s'.1 ∧ Recollects wrt nodes s.2

theorem recollecting_within {α α' : Type} {P : Timeless → α → α' → Prop} {work : Work K α}
    {work' : Work K α'} (h : Tandem (sameTrees K).Stands P .world work work') :
    Tandem (Recollecting wrt nodes) P .world (Work.within work) (Work.within work') :=
  Tandem.within (R := fun _ memo _ => Recollects wrt nodes memo) (fun _ _ _ _ _ held => held) h

/-- A pass that recollects looks a node up, where otherwise it is differentiated anew. -/
theorem remembering_tandem (coherent : Node.Coherent nodes) (below : Node.Below nodes n)
    {compute : Pass K (Node K)}
    (h : Tandem (Recollecting wrt nodes) (fun _ => Node.SameTree) .world compute
      ((Registry.standard : Registry K).deriveAnew wrt n)) :
    Tandem (Recollecting wrt nodes) (fun _ => Node.SameTree) .world
      (do
        match ← Pass.known? n.id with
        | some known => return known
        | none =>
            let derived ← compute
            Pass.remember n.id derived
            return derived)
      ((Registry.standard : Registry K).deriveAnew wrt n) := by
  intro s s' states
  rw [remembering_run]
  cases found : s.2[n.id]? with
  | some m =>
      have same := states.2.known coherent below found s'
      revert same
      rcases (((Registry.standard : Registry K).deriveAnew wrt n).run.run s') with ⟨outcome, t⟩
      rintro (⟨same⟩ | _)
      exact .value le_rfl same ⟨trivial, states.2⟩
  | none =>
      have computed (t : Workspace K × Memo K) := h s t ⟨trivial, states.2⟩
      have here := computed s'
      revert computed here
      rcases compute.run.run s with ⟨f | m, t⟩
      · exact fun _ here => here
      · intro computed
        -- the same is found from any other state, so it may be remembered
        have anew : DerivedAnew wrt n (.ok m) := fun t => (computed t).sameOutcome
        rcases (((Registry.standard : Registry K).deriveAnew wrt n).run.run s') with ⟨outcome, t'⟩
        rintro ⟨later, same, states⟩
        exact .value later same ⟨trivial, states.2.remember below anew⟩

/-- Nodes of one tree correspond, but requests are for the same operands. -/
def asking (operands : List (Node K)) : Correspondence K (Node K) (Node K) :=
  ⟨Node.SameTree, fun n m => n = m ∧ n ∈ operands, Node.SameTree⟩

/-- A hook asks for nothing but the derivatives of the operands. -/
theorem deriv_accords (wrt : Node K) {s : Signature}
    {deriv : Node K → List (Node K) → Recipe K (Node K) (Node K) (Node K)}
    (hooked : ((Registry.standard : Registry K).hooks s).deriv = some deriv)
    (operands : List (Node K)) :
    (deriv wrt operands).Accords (asking operands) Node.SameTree (deriv wrt operands) := by
  rcases operator_of_hook (·.deriv) rfl hooked with ⟨o, _, hook⟩
  have like : Differentiating (asking operands) :=
    ⟨Node.resembles_sameTree, fun _ _ asked => asked.1 ▸ rfl, fun _ _ same => same, fun _ => rfl⟩
  exact o.accords_deriv like (List.forall₂_same.2 fun m hm => ⟨rfl, hm⟩) hook

/-- Over one list of operands the hook of an operator differentiates in both runs alike. -/
theorem differentiate_tandem {id : NodeId} {s : Signature} {operands : List (Node K)}
    {answer answer' : Node K → Pass K (Node K)}
    (answers : ∀ m ∈ operands,
      Tandem (Recollecting wrt nodes) (fun _ => Node.SameTree) .world (answer m) (answer' m)) :
    Tandem (Recollecting wrt nodes) (fun _ => Node.SameTree) .world
      ((Registry.standard : Registry K).differentiate wrt id s operands answer)
      ((Registry.standard : Registry K).differentiate wrt id s operands answer') := by
  have refused (e : Error) : Tandem (Recollecting wrt nodes) (fun _ => Node.SameTree) .world
      (Work.within (Work.refuse e) : Pass K (Node K))
      (Work.within (Work.refuse e) : Pass K (Node K)) :=
    recollecting_within (.refuse e)
  rw [Registry.differentiate, Registry.differentiate]
  cases hooked : ((Registry.standard : Registry K).hooks s).deriv with
  | none => exact refused _
  | some deriv =>
      have accords := deriv_accords wrt hooked operands
      refine (recollecting_within (Frame.record_tandem _ _)).bind fun _ _ _ _ _ => ?_
      have ran : Tandem (Recollecting wrt nodes) (fun _ => Node.SameTree) .world
          ((deriv wrt operands).run (fun k => Work.within ((Registry.standard : Registry K).make k))
            answer fun e => Work.within (Work.refuse e))
          ((deriv wrt operands).run (fun k => Work.within ((Registry.standard : Registry K).make k))
            answer' fun e => Work.within (Work.refuse e)) := by
        refine Recipe.Accords.tandem (c := fun _ => asking operands) (fun _ _ => accords)
          (fun _ _ _ _ _ same => same) (fun _ _ _ _ _ same => same) (fun _ k k' _ made => ?_)
          (fun _ m m' _ asked => ?_) fun _ e _ => refused e
        · exact recollecting_within (Frame.make_tandem (blind (sameTrees K)) .world k k' made)
        · obtain ⟨rfl, hm⟩ := asked
          exact answers m hm
      refine ran.bind fun _ n n' _ same => ?_
      rw [(Node.resembles_sameTree same).shape]
      exact .ite Iff.rfl (fun _ => refused _) fun _ => .value same

/-- From whatever a pass recollects, it comes to the derivative that is found without a memory. -/
theorem deriveWith_tandem (again : Node K → Pass K (Node K)) (coherent : Node.Coherent nodes)
    (below : Node.Below nodes n) :
    Tandem (Recollecting wrt nodes) (fun _ => Node.SameTree) .world
      ((Registry.standard : Registry K).deriveWith wrt again n)
      ((Registry.standard : Registry K).deriveAnew wrt n) := by
  induction n using Node.induct with
  | constant id v =>
      rw [Registry.deriveWith]
      refine remembering_tandem coherent below ?_
      rw [Registry.deriveAnew]
      exact recollecting_within (Frame.newConstant_tandem _)
  | leaf id name s =>
      rw [Registry.deriveWith]
      refine remembering_tandem coherent below ?_
      rw [Registry.deriveAnew]
      exact recollecting_within (Frame.newConstant_tandem _)
  | application id s operands ih =>
      rw [Registry.deriveWith]
      refine remembering_tandem coherent below ?_
      rw [Registry.deriveAnew]
      have reached (m : Node K) (hm : m ∈ operands) : Node.Below nodes m :=
        below.of_reaches (.of_mem_operands hm)
      refine differentiate_tandem fun m hm => ?_
      have unique (k : Node K) (hk : k ∈ operands) (same : k.id = m.id) : k = m :=
        coherent.eq_of_id_eq (reached k hk) (reached m hm) same
      rw [Registry.answerDerivative_eq hm unique, Registry.answerDerivative_anew hm unique]
      exact ih m hm (reached m hm)

/-- What differentiating one of the nodes comes to, in a pass or without a memory. -/
theorem deriveWith_anew (again : Node K → Pass K (Node K)) (coherent : Node.Coherent nodes)
    (below : Node.Below nodes n) :
    Triple (fun s => Recollects wrt nodes s.2)
      ((Registry.standard : Registry K).deriveWith wrt again n)
      (fun m s => DerivedAnew wrt n (.ok m) ∧ Recollects wrt nodes s.2)
      fun f s => DerivedAnew wrt n (.error f) ∧ Recollects wrt nodes s.2 := by
  intro s recollects
  have computed (t : Workspace K × Memo K) :=
    deriveWith_tandem again coherent below s t ⟨trivial, recollects⟩
  have here := computed s
  revert computed here
  rcases ((Registry.standard : Registry K).deriveWith wrt again n).run.run s with ⟨outcome, s'⟩
  intro computed here
  have anew : DerivedAnew wrt n outcome := fun t => (computed t).sameOutcome
  revert here
  rcases ((Registry.standard : Registry K).deriveAnew wrt n).run.run s with ⟨outcome', t⟩
  rintro (⟨_, _, states⟩ | ⟨_, states⟩)
  · exact ⟨anew, states.2⟩
  · exact ⟨anew, states.2⟩

/-! ## No derivative twice -/

/-- The node with the identity cannot be differentiated. -/
def Fails (wrt : Node K) (nodes : List (Node K)) (id : NodeId) : Prop :=
  ∃ x, Node.Below nodes x ∧ x.id = id ∧ ∃ f, DerivedAnew wrt x (.error f)

/-- A pass that recollects has come further, by nodes that could be differentiated. -/
abbrev Further (wrt : Node K) (nodes : List (Node K)) (touched : NodeId → Prop)
    (s s' : Workspace K × Memo K) : Prop :=
  Recollects wrt nodes s'.2 ∧ Progress touched (Fails wrt nodes) s s'

/-- Work on the workspace that visits nothing comes no further. -/
theorem further_within {α : Type} {touched : NodeId → Prop} {start : Workspace K × Memo K}
    {work : Work K α} (idle : work.Idle) :
    Triple (Further wrt nodes touched start) (Work.within work)
      (fun _ => Further wrt nodes touched start) fun _ => Further wrt nodes touched start := by
  refine .within fun memo w further => ?_
  have visits := idle w
  rw [Work.runIn] at visits
  revert visits
  rcases work.run.run w with ⟨_ | _, w'⟩
  · exact fun visits => ⟨further.1, further.2.trans (.of_idle rfl visits)⟩
  · exact fun visits => ⟨further.1, further.2.trans (.of_idle rfl visits)⟩

/-- The hook of an operator, if there is one, comes as far as the answers to its requests. -/
theorem differentiate_further {i : NodeId} {s : Signature} {operands : List (Node K)}
    {answer : Node K → Pass K (Node K)} {touched : NodeId → Prop}
    (answers : ∀ m ∈ operands, ∀ start, Triple (Further wrt nodes touched start) (answer m)
      (fun _ => Further wrt nodes touched start) fun _ => Further wrt nodes touched start)
    {start : Workspace K × Memo K} (recollects : Recollects wrt nodes start.2) :
    Settles (fun _ => Further wrt nodes touched (start.1.tell (.differentiating i s), start.2))
      (fun _ s' => s' = start ∨
        Further wrt nodes touched (start.1.tell (.differentiating i s), start.2) s')
      (((Registry.standard : Registry K).differentiate wrt i s operands answer).run.run start) := by
  rw [Registry.differentiate]
  cases hooked : ((Registry.standard : Registry K).hooks s).deriv with
  | none => exact .inl rfl
  | some deriv =>
      have ran : Triple (Further wrt nodes touched (start.1.tell (.differentiating i s), start.2))
          ((deriv wrt operands).run (fun k => Work.within ((Registry.standard : Registry K).make k))
            answer fun e => Work.within (Work.refuse e))
          (fun _ => Further wrt nodes touched (start.1.tell (.differentiating i s), start.2))
          fun _ => Further wrt nodes touched (start.1.tell (.differentiating i s), start.2) :=
        (deriv_accords wrt hooked operands).run_keeps (fun _ => rfl) (fun _ => rfl)
          (fun k => further_within (.make _ k))
          (fun m m' asked => answers m asked.2 _) fun e => further_within (.refuse e)
      have told : Triple (· = start) (Work.within (Work.record (.differentiating i s)))
          (fun _ => Further wrt nodes touched (start.1.tell (.differentiating i s), start.2))
          fun _ s' => s' = start ∨
            Further wrt nodes touched (start.1.tell (.differentiating i s), start.2) s' := by
        rintro _ rfl
        exact ⟨recollects, .refl _⟩
      refine Triple.bind told (fun _ => Triple.bind (ran.weaken (fun _ h => h) (fun _ _ h => h)
        fun _ _ => .inr) fun n => ?_) start rfl
      split
      · exact (further_within (.refuse _)).weaken (fun _ h => h) (fun _ _ h => h) fun _ _ => .inr
      · exact .value fun _ h => h

omit [Arithmetic K] [Numeral K] in
/-- A new constant is remembered for a constant or a leaf, which is not visited. -/
theorem newConstant_progress (v : Literal K) {excused : NodeId → Prop}
    {start : Workspace K × Memo K} (unknown : start.2[n.id]? = none) :
    Settles (fun m s => Progress n.Covers excused start (s.1, s.2.insert n.id m))
      (fun _ => Progress n.Covers excused start)
      ((Work.within (Node.newConstant v) : Pass K (Node K)).run.run start) := by
  have made : Progress n.Covers excused start
      ({ start.1 with nextId := start.1.nextId + 1 }, start.2) := .of_idle rfl rfl
  exact made.remember (fun k known => absurd (known.symm.trans unknown) (Option.some_ne_none k))
    n.covers_self

/-- A pass visits only what lies below the node, and remembers the derivative of the node. -/
theorem deriveWith_progress (again : Node K → Pass K (Node K)) (coherent : Node.Coherent nodes)
    (below : Node.Below nodes n)
    {start : Workspace K × Memo K} (recollects : Recollects wrt nodes start.2) :
    Settles (fun m s => s.2[n.id]? = some m ∧ Progress n.Covers (Fails wrt nodes) start s)
      (fun _ => Progress n.Covers (Fails wrt nodes) start)
      (((Registry.standard : Registry K).deriveWith wrt again n).run.run start) := by
  induction n using Node.induct generalizing start with
  | constant | leaf =>
      rw [Registry.deriveWith]
      exact remembering_settles (.refl start) (newConstant_progress _)
  | application id s operands ih =>
      let root : Node K := .application id s operands
      let touched (i : NodeId) : Prop := ∃ m ∈ operands, m.Covers i
      have reached (m : Node K) (hm : m ∈ operands) : Node.Below nodes m :=
        below.of_reaches (.of_mem_operands hm)
      have covers (i : NodeId) (h : touched i) : root.Covers i := by
        rcases h with ⟨m, hm, below⟩
        exact below.of_mem_operands hm
      -- the application does not lie below its operands
      have untouched : ¬ touched id := by
        rintro ⟨m, hm, x, hx, same⟩
        obtain rfl := coherent.eq_of_id_eq ((reached m hm).of_reaches hx) below same
        exact Node.not_reaches_of_mem_operands hm hx
      have answers (m : Node K) (hm : m ∈ operands) (first : Workspace K × Memo K) :
          Triple (Further wrt nodes touched first) (Registry.answerDerivative
              (Registry.derivesWith (Registry.standard : Registry K) wrt again operands) again m)
            (fun _ => Further wrt nodes touched first) fun _ => Further wrt nodes touched first := by
        rw [Registry.answerDerivative_eq hm fun k hk same =>
          coherent.eq_of_id_eq (reached k hk) (reached m hm) same]
        intro s further
        have went := ih m hm (reached m hm) further.1
        have recalls := deriveWith_anew again coherent (reached m hm) s further.1
        have onward {s' : Workspace K × Memo K}
            (progress : Progress m.Covers (Fails wrt nodes) s s') :
            Progress touched (Fails wrt nodes) first s' :=
          further.2.trans (progress.wider fun i covers => ⟨m, hm, covers⟩)
        revert went recalls
        rcases ((Registry.standard : Registry K).deriveWith wrt again m).run.run s with ⟨_ | d, s'⟩
        · exact fun went recalls => ⟨recalls.2, onward went⟩
        · exact fun went recalls => ⟨recalls.2, onward went.2⟩
      have anew := deriveWith_anew again coherent below start recollects
      rw [Registry.deriveWith_application] at anew ⊢
      refine remembering_settles (.refl start) fun unknown => ?_
      have went := differentiate_further (i := id) (s := s) answers recollects
      rw [Node.id_application] at unknown
      rw [remembering_run, unknown] at anew
      revert anew went
      rcases ((Registry.standard : Registry K).differentiate wrt id s operands _).run.run start
        with ⟨f | m, s'⟩
      · intro anew went
        have excuse : Fails wrt nodes id := ⟨root, below, rfl, f, anew.1⟩
        rcases went with rfl | went
        · exact .refl _
        · exact (went.2.wider covers).abandon rfl unknown root.covers_self excuse
      · intro _ went
        refine (went.2.visit rfl unknown untouched m).wider fun i h => ?_
        rcases h with h | rfl
        · exact covers i h
        · exact root.covers_self

end Standard

end SymbolicLinalg
