import SymbolicLinalg.Workspace

/-!
# Triple — what work does to its state

`Triple pre work post fault` says of work over a state that, from every state with `pre`, it either
comes to a value and a state with `post`, or is given up with `fault`.  With the fault `False` this
is total correctness.

The rules below follow the steps from which work is composed, so that a pass is verified along its
own text.
-/

namespace SymbolicLinalg

variable {S α β : Type}

/-- What is said of the outcome of work: one thing of a value, another of a fault. -/
def Settles (post : α → S → Prop) (fault : Fault → S → Prop) : Except Fault α × S → Prop
  | (.ok a, s) => post a s
  | (.error f, s) => fault f s

/-- From every state with `pre`, the work ends with `post` or is given up with `fault`. -/
def Triple (pre : S → Prop) (work : ExceptT Fault (StateM S) α) (post : α → S → Prop)
    (fault : Fault → S → Prop) : Prop :=
  ∀ s, pre s → Settles post fault (work.run.run s)

/-- The fault of work that is never given up. -/
abbrev never (_ : Fault) (_ : S) : Prop := False

theorem Settles.imp {post post' : α → S → Prop} {fault fault' : Fault → S → Prop}
    {outcome : Except Fault α × S} (h : Settles post' fault' outcome)
    (after : ∀ a s, post' a s → post a s) (given : ∀ f s, fault' f s → fault f s) :
    Settles post fault outcome := by
  rcases outcome with ⟨_ | _, s⟩
  · exact given _ s h
  · exact after _ s h

/-- Work goes on from the value and the state that other work comes to. -/
theorem Settles.bind {work : ExceptT Fault (StateM S) α} {next : α → ExceptT Fault (StateM S) β}
    {m : α → S → Prop} {post : β → S → Prop} {fault : Fault → S → Prop} {s : S}
    (h : Settles m fault (work.run.run s))
    (k : ∀ a s', m a s' → Settles post fault ((next a).run.run s')) :
    Settles post fault ((work >>= next).run.run s) := by
  rw [ExceptT.run_bind, StateT.run_bind]
  revert h
  rcases work.run.run s with ⟨_ | a, s'⟩
  · exact id
  · exact k a s'

namespace Triple

variable {pre pre' : S → Prop} {post post' : α → S → Prop} {fault fault' : Fault → S → Prop}

/-! ## Consequence -/

theorem weaken {work : ExceptT Fault (StateM S) α} (h : Triple pre' work post' fault')
    (before : ∀ s, pre s → pre' s) (after : ∀ a s, post' a s → post a s)
    (given : ∀ f s, fault' f s → fault f s) : Triple pre work post fault :=
  fun s hs => (h s (before s hs)).imp after given

theorem strengthen {work : ExceptT Fault (StateM S) α} (h : Triple pre' work post fault)
    (before : ∀ s, pre s → pre' s) : Triple pre work post fault :=
  h.weaken before (fun _ _ => id) fun _ _ => id

theorem relax {work : ExceptT Fault (StateM S) α} (h : Triple pre work post' fault)
    (after : ∀ a s, post' a s → post a s) : Triple pre work post fault :=
  h.weaken (fun _ => id) after fun _ _ => id

/-- A part of the precondition that does not speak of the state is a hypothesis. -/
theorem assuming {work : ExceptT Fault (StateM S) α} {p : Prop}
    (h : p → Triple pre work post fault) : Triple (fun s => p ∧ pre s) work post fault :=
  fun s hs => h hs.1 s hs.2

/-- What is known in two ways of the same work. -/
theorem both {work : ExceptT Fault (StateM S) α} (h : Triple pre work post fault)
    (h' : Triple pre' work post' fault') :
    Triple (fun s => pre s ∧ pre' s) work (fun a s => post a s ∧ post' a s)
      fun f s => fault f s ∧ fault' f s := by
  intro s hs
  have first := h s hs.1
  have second := h' s hs.2
  revert first second
  rcases work.run.run s with ⟨_ | _, s'⟩
  · exact And.intro
  · exact And.intro

/-- What is known if some proposition holds. -/
theorem under {work : ExceptT Fault (StateM S) α} {p : Prop}
    (h : p → Triple pre work post fault) :
    Triple pre work (fun a s => p → post a s) fun f s => p → fault f s := by
  intro s hs
  have settled (hp : p) := h hp s hs
  revert settled
  rcases work.run.run s with ⟨_ | _, s'⟩
  · exact id
  · exact id

/-- Work comes to values that it can come to. -/
theorem ran {work : ExceptT Fault (StateM S) α} (h : Triple pre work post fault) :
    Triple pre work (fun a s => (∃ start, work.run.run start = (.ok a, s)) ∧ post a s) fault := by
  intro start hs
  have done := h start hs
  revert done
  rcases run : work.run.run start with ⟨_ | _, s⟩
  · exact id
  · exact fun done => ⟨⟨start, run⟩, done⟩

theorem of_exists {ι : Type} {pre : ι → S → Prop} {work : ExceptT Fault (StateM S) α}
    (h : ∀ i, Triple (pre i) work post fault) : Triple (fun s => ∃ i, pre i s) work post fault :=
  fun s ⟨i, hs⟩ => h i s hs

/-! ## Composition -/

theorem value {a : α} (h : ∀ s, pre s → post a s) :
    Triple pre (pure a : ExceptT Fault (StateM S) α) post fault :=
  h

theorem bind {work : ExceptT Fault (StateM S) α} {next : α → ExceptT Fault (StateM S) β}
    {m : α → S → Prop} {post : β → S → Prop} (h : Triple pre work m fault)
    (k : ∀ a, Triple (m a) (next a) post fault) : Triple pre (work >>= next) post fault :=
  fun s hs => (h s hs).bind k

theorem giveUp {f : Fault} (h : ∀ s, pre s → fault f s) :
    Triple pre (throw f : ExceptT Fault (StateM S) α) post fault :=
  h

theorem read {post : S → S → Prop} (h : ∀ s, pre s → post s s) :
    Triple pre (get : ExceptT Fault (StateM S) S) post fault :=
  h

theorem update {f : S → S} {post : Unit → S → Prop} (h : ∀ s, pre s → post () (f s)) :
    Triple pre (modify f : ExceptT Fault (StateM S) Unit) post fault :=
  h

theorem take {f : S → α × S} (h : ∀ s, pre s → post (f s).1 (f s).2) :
    Triple pre (modifyGet f : ExceptT Fault (StateM S) α) post fault :=
  h

/-! ## Workspaces -/

section

variable {K T : Type} {before : Workspace K → Prop} {after : α → Workspace K → Prop}
  {fault : Fault → Workspace K → Prop}

theorem refuse {e : Error} (h : ∀ w, before w → fault (.error e) w) :
    Triple before (Work.refuse e : Work K α) after fault :=
  h

theorem ofExcept {x : Except Error α} (ok : ∀ a, x = .ok a → ∀ w, before w → after a w)
    (error : ∀ e, x = .error e → ∀ w, before w → fault (.error e) w) :
    Triple before (Work.ofExcept x) after fault := by
  cases x with
  | ok a => exact ok a rfl
  | error e => exact error e rfl

theorem record {e : Event K} {after : Unit → Workspace K → Prop}
    (h : ∀ w, before w → after () { w with events := w.events.push e }) :
    Triple before (Work.record e) after fault :=
  h

theorem fresh {after : NodeId → Workspace K → Prop}
    (h : ∀ w, before w → after w.nextId { w with nextId := w.nextId + 1 }) :
    Triple before (Work.fresh : Work K NodeId) after fault :=
  h

/-- Work inside a larger state leaves the rest of that state alone. -/
theorem within {work : Work K α} {pre : Workspace K × T → Prop}
    {post : α → Workspace K × T → Prop} {fault : Fault → Workspace K × T → Prop}
    (h : ∀ t, Triple (fun w => pre (w, t)) work (fun a w => post a (w, t))
      fun f w => fault f (w, t)) :
    Triple pre (Work.within work) post fault := by
  intro s hs
  rcases s with ⟨w, t⟩
  have done := h t w hs
  change Settles post fault ((Work.within work : StatefulWork K T α) (w, t))
  rw [Work.within_apply, Work.runIn]
  revert done
  rcases work.run.run w with ⟨_ | _, w'⟩ <;> exact id

/-- Work on the workspace alone leaves an invariant of the rest of the state as it is. -/
theorem alongside {work : Work K α} (invariant : T → Prop)
    (h : Triple before work after fun _ _ => True) :
    Triple (fun s => before s.1 ∧ invariant s.2) (Work.within work)
      (fun a s => after a s.1 ∧ invariant s.2) fun _ _ => True :=
  .within fun _ w hw => (h w hw.1).imp (fun _ _ ha => ⟨ha, hw.2⟩) fun _ _ => id

/-- What is known of the rest of the state is known after work on the workspace alone. -/
theorem inside {work : Work K α} {post : α → Prop} {fault : Fault → Workspace K × T → Prop}
    (invariant : T → Prop) (h : Triple (fun _ => True) work (fun a _ => post a) never) :
    Triple (fun s => invariant s.2) (Work.within work) (fun a s => post a ∧ invariant s.2) fault :=
  .within fun _ w hw => (h w trivial).imp (fun _ _ ha => ⟨ha, hw⟩) fun _ _ => False.elim

/-- Work that starts a state of its own forgets it in the end. -/
theorem starting {work : StatefulWork K T α} {t : T}
    (h : Triple (fun s => before s.1 ∧ s.2 = t) work (fun a s => after a s.1)
      fun f s => fault f s.1) :
    Triple before (Work.starting t work) after fault := by
  intro w hw
  have done := h (w, t) ⟨hw, rfl⟩
  change Settles after fault ((Work.starting t work : Work K α) w)
  rw [Work.starting]
  revert done
  rcases work.run.run (w, t) with ⟨_ | _, w', t'⟩ <;> exact id

/-- Work that is never given up comes to a value. -/
theorem runIn_eq_ok {work : Work K α} (h : Triple before work after never) {w : Workspace K}
    (hw : before w) : ∃ a w', Work.runIn work w = (.ok a, w') ∧ after a w' := by
  have done := h w hw
  rw [Work.runIn]
  revert done
  rcases work.run.run w with ⟨_ | a, w'⟩
  · exact False.elim
  · exact fun done => ⟨a, w', rfl, done⟩

/-- What holds of the value whatever a parameter is, holds of one value. -/
theorem runIn_eq_ok_forall {ι : Type} (default : ι) {work : Work K α}
    {after : ι → α → Workspace K → Prop} (h : ∀ i, Triple before work (after i) never)
    {w : Workspace K} (hw : before w) :
    ∃ a w', Work.runIn work w = (.ok a, w') ∧ ∀ i, after i a w' := by
  rcases runIn_eq_ok (h default) hw with ⟨a, w', run, _⟩
  refine ⟨a, w', run, fun i => ?_⟩
  rcases runIn_eq_ok (h i) hw with ⟨b, w'', run', holds⟩
  rcases Prod.mk.inj (run.symm.trans run') with ⟨same, rfl⟩
  obtain rfl := Except.ok.inj same
  exact holds

theorem of_runIn_eq_ok {work : Work K α} (h : Triple before work after fault) {w w' : Workspace K}
    {a : α} (hw : before w) (run : Work.runIn work w = (.ok a, w')) : after a w' := by
  have done := h w hw
  rw [Work.runIn] at run
  rwa [run] at done

end

end Triple

/-! ## Memos -/

namespace Pass

variable {K : Type} {pre : Workspace K × Memo K → Prop}
  {fault : Fault → Workspace K × Memo K → Prop}

theorem known?_triple (id : NodeId) :
    Triple pre (Pass.known? id) (fun known? s => pre s ∧ known? = s.2[id]?) fault :=
  fun _ hs => ⟨hs, rfl⟩

theorem remember_triple {id : NodeId} {result : Node K}
    {post : Unit → Workspace K × Memo K → Prop}
    (h : ∀ s, pre s → post () (s.1, s.2.insert id result)) :
    Triple pre (Pass.remember id result) post fault :=
  .update h

end Pass

end SymbolicLinalg
