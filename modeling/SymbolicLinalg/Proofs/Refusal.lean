import SymbolicLinalg.Kernel
import SymbolicLinalg.Proofs.Operation
import SymbolicLinalg.Proofs.Pointing

/-!
# Refusal — the errors that work is given up with

Where work raises an error, the situation is one of those that `Pointing` has a lemma for, or it is
the hook of an operator that refuses by itself.  What holds of the former and of the latter holds of
every error that a pass can be given up with, whatever the state it starts from.

* `RaisesOnly`: the errors that work is given up with have a property, and its rules;
* `Hooks.MakesUp`: the errors with which the hooks of an operator refuse;
* `make_raises`, `lowerNext_raises` and the like: one lemma for each pass.
-/

namespace SymbolicLinalg

/-! ## Errors of work -/

section

variable {S α β : Type} {P : Error → Prop}

/-- If the work is given up with an error, the error has the property. -/
def RaisesOnly (P : Error → Prop) (work : ExceptT Fault (StateM S) α) : Prop :=
  Triple (fun _ => True) work (fun _ _ => True) fun f _ => ∀ e, f = .error e → P e

namespace RaisesOnly

theorem of_run {work : ExceptT Fault (StateM S) α} (h : RaisesOnly P work) {s s' : S} {e : Error}
    (run : work.run.run s = (.error (.error e), s')) : P e := by
  have settled := h s trivial
  rw [run] at settled
  exact settled e rfl

theorem value (a : α) : RaisesOnly P (pure a : ExceptT Fault (StateM S) α) :=
  Triple.value fun _ _ => trivial

theorem bind {work : ExceptT Fault (StateM S) α} {next : α → ExceptT Fault (StateM S) β}
    (h : RaisesOnly P work) (k : ∀ a, RaisesOnly P (next a)) : RaisesOnly P (work >>= next) :=
  Triple.bind h k

theorem update (f : S → S) : RaisesOnly P (modify f : ExceptT Fault (StateM S) Unit) :=
  Triple.update fun _ _ => trivial

theorem read : RaisesOnly P (get : ExceptT Fault (StateM S) S) :=
  Triple.read fun _ _ => trivial

theorem take (f : S → α × S) : RaisesOnly P (modifyGet f : ExceptT Fault (StateM S) α) :=
  Triple.take fun _ _ => trivial

/-- What does not come from an error is not the matter of errors. -/
theorem nesting : RaisesOnly P (throw .nesting : ExceptT Fault (StateM S) α) :=
  Triple.giveUp fun _ _ _ same => absurd same nofun

theorem lift {outcome : Except Fault α} (h : ∀ e, outcome = .error (.error e) → P e) :
    RaisesOnly P (liftM outcome : ExceptT Fault (StateM S) α) := by
  cases outcome with
  | ok a => exact value a
  | error f => exact fun _ _ e same => h e (congrArg _ same)

theorem mapM {l : List β} {f : β → ExceptT Fault (StateM S) α} (h : ∀ b ∈ l, RaisesOnly P (f b)) :
    RaisesOnly P (l.mapM f) := by
  induction l with
  | nil => exact .value []
  | cons b rest ih =>
    rw [List.forall_mem_cons] at h
    rw [List.mapM_cons]
    exact .bind h.1 fun a => .bind (ih h.2) fun others => .value (a :: others)

theorem forM {l : List β} {f : β → ExceptT Fault (StateM S) Unit}
    (h : ∀ b, RaisesOnly P (f b)) : RaisesOnly P (l.forM f) := by
  induction l with
  | nil => exact .value ()
  | cons b rest ih => exact .bind (h b) fun _ => ih

/-! ### Workspaces -/

variable {K T : Type}

theorem refuse {e : Error} (h : P e) : RaisesOnly P (Work.refuse e : Work K α) :=
  Triple.refuse fun _ _ _ same => Fault.error.inj same ▸ h

theorem ofExcept {outcome : Except Error α} (h : ∀ e, outcome = .error e → P e) :
    RaisesOnly P (Work.ofExcept outcome : Work K α) :=
  Triple.ofExcept (fun _ _ _ _ => trivial) fun e error _ _ _ same =>
    Fault.error.inj same ▸ h e error

theorem record (e : Event K) : RaisesOnly P (Work.record e) :=
  Triple.record fun _ _ => trivial

theorem fresh : RaisesOnly P (Work.fresh : Work K NodeId) :=
  Triple.fresh fun _ _ => trivial

theorem within {work : Work K α} (h : RaisesOnly P work) :
    RaisesOnly P (Work.within work : StatefulWork K T α) :=
  Triple.within fun _ => h

theorem starting {work : StatefulWork K T α} (h : RaisesOnly P work) (t : T) :
    RaisesOnly P (Work.starting t work) :=
  Triple.starting (Triple.strengthen h fun _ _ => trivial)

/-- Nothing comes after a refusal. -/
theorem refusing {e : Error} (h : P e) (next : α → StatefulWork K T β) :
    RaisesOnly P (Work.within (Work.refuse e) >>= next) :=
  Triple.bind (m := fun _ _ => False)
    (Triple.within fun _ => Triple.refuse fun _ _ _ same => Fault.error.inj same ▸ h)
    fun _ _ => False.elim

/-- A node is looked up before it is worked on. -/
theorem knowing (id : NodeId) {otherwise : Pass K (Node K)} (h : RaisesOnly P otherwise) :
    RaisesOnly P (do
      match ← Pass.known? id with
      | some known => return known
      | none => otherwise) := by
  refine .bind (.bind .read fun _ => .value _) fun known? => ?_
  cases known? with
  | some known => exact .value known
  | none => exact h

theorem remember (id : NodeId) (n : Node K) : RaisesOnly P (Pass.remember id n) :=
  .update _

end RaisesOnly

end

/-- What a list of checks refuses, one of them refuses. -/
theorem exists_of_forM_eq_error {β : Type} {l : List β} {f : β → Except Error Unit} {e : Error}
    (h : l.forM f = .error e) : ∃ b ∈ l, f b = .error e := by
  induction l with
  | nil => exact absurd h nofun
  | cons b rest ih =>
    change (f b >>= fun _ => rest.forM f) = .error e at h
    cases first : f b with
    | error e' =>
      rw [first] at h
      exact ⟨b, List.mem_cons_self, first.trans h⟩
    | ok _ =>
      rw [first] at h
      obtain ⟨c, hc, refused⟩ := ih h
      exact ⟨c, List.mem_cons_of_mem b hc, refused⟩

/-! ## Errors of hooks -/

variable {K ρ σ α : Type}

/-- The recipe refuses with the error, after some answers to what it asks for. -/
def Recipe.MakesUp : Recipe K ρ σ α → Error → Prop
  | .done _, _ => False
  | .refuse made, e => made = e
  | .make _ next, e => ∃ n, (next n).MakesUp e
  | .ask _ next, e => ∃ reply, (next reply).MakesUp e

/-- One of the hooks refuses with the error. -/
inductive Hooks.MakesUp (h : Hooks K) (e : Error) : Prop where
  | optimize {rule : List (Node K) → Rule K (Option (Node K))} (operands : List (Node K)) :
      h.optimize = some rule → (rule operands).MakesUp e → MakesUp h e
  | expand {rule : List (Node K) → Rule K (Option (Node K))} (operands : List (Node K)) :
      h.expand = some rule → (rule operands).MakesUp e → MakesUp h e
  | replace {rule : List (Node K) → Rule K (Node K)} (operands : List (Node K)) :
      h.replace = some rule → (rule operands).MakesUp e → MakesUp h e
  | deriv {rule : Node K → List (Node K) → Recipe K (Node K) (Node K) (Node K)} (wrt : Node K)
      (operands : List (Node K)) :
      h.deriv = some rule → (rule wrt operands).MakesUp e → MakesUp h e
  | gradient {rule : Node K → List (Node K) → Recipe K (Contribution K) Unit Unit}
      (incoming : Node K) (operands : List (Node K)) :
      h.gradient = some rule → (rule incoming operands).MakesUp e → MakesUp h e

/-- The hooks of a signature are those of a definition, or there are none. -/
theorem Registry.exists_of_makesUp {r : Registry K} {s : Signature} {e : Error}
    (h : (r.hooks s).MakesUp e) : ∃ d ∈ r.definitions, d.hooks.MakesUp e := by
  rw [hooks] at h
  split at h
  · rename_i d found
    exact ⟨d, List.mem_of_find?_eq_some found, h⟩
  · rcases h with ⟨_, none, _⟩ | ⟨_, none, _⟩ | ⟨_, none, _⟩ | ⟨_, _, none, _⟩ | ⟨_, _, none, _⟩ <;>
      cases none

/-- Carrying a recipe out raises what its constructions and requests raise, and what it makes up. -/
theorem Recipe.run_raises {S : Type} {P : Error → Prop}
    {make : Construction K → ExceptT Fault (StateM S) (Node K)}
    {answer : ρ → ExceptT Fault (StateM S) σ} {refuse : Error → ExceptT Fault (StateM S) α}
    {recipe : Recipe K ρ σ α} (makes : ∀ c, RaisesOnly P (make c))
    (answers : ∀ q, RaisesOnly P (answer q))
    (refuses : ∀ e, recipe.MakesUp e → RaisesOnly P (refuse e)) :
    RaisesOnly P (recipe.run make answer refuse) := by
  induction recipe with
  | done a => exact .value a
  | refuse e => exact refuses e rfl
  | make c next ih => exact .bind (makes c) fun n => ih n fun e made => refuses e ⟨n, made⟩
  | ask q next ih => exact .bind (answers q) fun r => ih r fun e made => refuses e ⟨r, made⟩

/-! ## Checks -/

namespace Registry

/-- The operand that does not fit, between those that come before it and those that come after. -/
theorem mismatch?_eq_some {start position : Nat} {operands : List (Node K)} {shapes : List Shape}
    {given : Shape} (h : mismatch? start operands shapes = some (position, given)) :
    ∃ before expected after, shapes = before ++ expected :: after ∧
      position = start + before.length ∧ given ≠ expected := by
  induction operands generalizing start shapes with
  | nil => exact absurd h nofun
  | cons n rest ih =>
    cases shapes with
    | nil => exact absurd h nofun
    | cons s shapes =>
      rw [mismatch?] at h
      split at h
      · obtain ⟨before, expected, after, rfl, rfl, differs⟩ := ih h
        refine ⟨s :: before, expected, after, rfl, ?_, differs⟩
        rw [List.length_cons, Nat.add_comm before.length, Nat.add_assoc]
      · rename_i differs
        cases h
        exact ⟨[], s, shapes, rfl, rfl, differs⟩

variable {r : Registry K} {e : Error}

theorem pointed_of_checkOperands {s : Signature} {operands : List (Node K)}
    (h : checkOperands s operands = .error e) : e.Pointed := by
  rw [checkOperands] at h
  split at h
  · cases h
    exact Error.pointed_noOperator _ _ _
  · split at h
    · -- the count is right, so the mismatch is at one of the declared operands
      rename_i position given found
      cases h
      obtain ⟨before, expected, after, operands, rfl, differs⟩ := mismatch?_eq_some found
      rw [Nat.zero_add]
      exact Error.pointed_wrongOperand operands differs
    · cases h

theorem pointed_of_register {d : Definition K} (h : r.register d = .error e) : e.Pointed := by
  rw [register] at h
  split at h
  · cases h
    exact Error.pointed_alreadyRegistered _
  · cases h

theorem pointed_of_resolve {name : String} {operands : List Shape}
    (h : r.resolve name operands = .error e) : e.Pointed := by
  rw [resolve] at h
  split at h
  · cases h
  · cases h
    exact Error.pointed_noOperator _ _ _
  · cases h
    exact Error.pointed_severalResults _ _ _

theorem pointed_of_resolveAs {result : Shape} {name : String} {operands : List Shape}
    (h : r.resolveAs result name operands = .error e) : e.Pointed := by
  rw [resolveAs] at h
  split at h
  · cases h
  · cases h
    exact Error.pointed_noOperator _ _ _

/-! ## Construction -/

variable {P : Error → Prop} (points : ∀ e : Error, e.Pointed → P e)

theorem follow_raises {inner : Construction K → Work K (Node K)} {rule : Rule K α}
    (makes : ∀ c, RaisesOnly P (inner c)) (refuses : ∀ e, rule.MakesUp e → P e) :
    RaisesOnly P (follow inner rule) :=
  Recipe.run_raises makes (fun q => q.elim) fun e made => .refuse (refuses e made)

theorem newApplication_raises (s : Signature) (operands : List (Node K)) :
    RaisesOnly P (Node.newApplication s operands) :=
  .bind .fresh fun id => .value (Node.application id s operands)

theorem newConstant_raises (v : Literal K) : RaisesOnly P (Node.newConstant v) :=
  .bind .fresh fun id => .value (Node.constant id v)

section

include points

theorem settle_raises (d : Definition K) (operands : List (Node K))
    (simplified? : Option (Node K)) : RaisesOnly P (settle d operands simplified?) := by
  cases simplified? with
  | none => exact newApplication_raises d.signature operands
  | some n =>
    rw [settle]
    split
    · rename_i differs
      exact .refuse (points _ (Error.pointed_wrongResult "optimize" differs))
    · exact .bind (.record _) fun _ => .value n

theorem buildWith_raises {inner : Construction K → Work K (Node K)}
    (makes : ∀ c, RaisesOnly P (inner c)) {d : Definition K}
    (refuses : ∀ e, d.hooks.MakesUp e → P e) (operands : List (Node K)) :
    RaisesOnly P (buildWith inner d operands) := by
  refine .bind (.ofExcept fun e he => points e (pointed_of_checkOperands he)) fun _ => ?_
  refine .bind ?_ fun simplified? => settle_raises points d operands simplified?
  rw [simplify?]
  split
  · rename_i optimize hook
    exact follow_raises makes fun e made => refuses e (.optimize operands hook made)
  · exact .value none

variable (refuses : ∀ d ∈ r.definitions, ∀ e, d.hooks.MakesUp e → P e)

include refuses

theorem makeWith_raises {inner : Construction K → Work K (Node K)}
    (makes : ∀ c, RaisesOnly P (inner c)) (c : Construction K) :
    RaisesOnly P (r.makeWith inner c) := by
  have builds {outcome : Except Error (Definition K)} (operands : List (Node K))
      (known : ∀ d, outcome = .ok d → d ∈ r.definitions)
      (pointed : ∀ e, outcome = .error e → e.Pointed) :
      RaisesOnly P (do
        let d ← Work.ofExcept outcome
        buildWith inner d operands) := by
    cases outcome with
    | ok d => exact buildWith_raises points makes (refuses d (known d rfl)) operands
    | error e => exact .refuse (points e (pointed e rfl))
  cases c with
  | constant v => exact newConstant_raises v
  | leaf name s => exact .bind .fresh fun id => .value (Node.leaf id name s)
  | apply name operands =>
    exact builds operands (fun d found => (mem_of_resolve_eq_ok found).1)
      fun e => pointed_of_resolve
  | applyFor result name operands =>
    exact builds operands (fun d found => (mem_of_resolveAs_eq_ok found).1)
      fun e => pointed_of_resolveAs

theorem makeWithin_raises (depth : Nat) (c : Construction K) :
    RaisesOnly P (r.makeWithin depth c) := by
  induction depth generalizing c with
  | zero => exact .nesting
  | succ depth ih => exact makeWith_raises points refuses ih c

theorem make_raises (c : Construction K) : RaisesOnly P (r.make c) :=
  makeWithin_raises points refuses nestingLimit c

theorem build_raises {d : Definition K} (made : ∀ e, d.hooks.MakesUp e → P e)
    (operands : List (Node K)) : RaisesOnly P (r.build d operands) :=
  buildWith_raises points (make_raises points refuses) made operands

omit points in
theorem hooks_raise {s : Signature} {e : Error} (made : (r.hooks s).MakesUp e) : P e := by
  obtain ⟨d, hd, made⟩ := exists_of_makesUp made
  exact refuses d hd e made

theorem rebuild_raises (s : Signature) (operands : List (Node K)) :
    RaisesOnly P (r.rebuild s operands) :=
  build_raises points refuses (fun _ made => hooks_raise refuses made) operands

/-! ## Lowering -/

theorem expansion?_raises (s : Signature) (operands : List (Node K)) :
    RaisesOnly P (r.expansion? s operands) := by
  have makes := make_raises points refuses
  rw [expansion?]
  split
  · rename_i replace hook
    have made (e : Error) (h : (replace operands).MakesUp e) : P e :=
      hooks_raise refuses (.replace operands hook h)
    exact .bind (follow_raises makes made) fun n => .value _
  · rename_i expand _ hook
    have made (e : Error) (h : (expand operands).MakesUp e) : P e :=
      hooks_raise refuses (.expand operands hook h)
    exact .bind (follow_raises makes made) fun n? => .value _
  · exact .value none

theorem checkedExpansion?_raises (s : Signature) (operands : List (Node K)) :
    RaisesOnly P (r.checkedExpansion? s operands) := by
  refine .bind (expansion?_raises points refuses s operands) fun answer? => ?_
  rcases answer? with _ | ⟨hook, n⟩
  · exact .value none
  · dsimp only
    split
    · rename_i differs
      exact .refuse (points _ (Error.pointed_wrongResult hook differs))
    · exact .bind (.record _) fun _ => .value (some n)

theorem lowerWith_raises {again : Node K → Pass K (Node K)} (nested : ∀ n, RaisesOnly P (again n))
    (n : Node K) : RaisesOnly P (r.lowerWith again n) := by
  induction n using Node.induct with
  | constant | leaf =>
    rw [lowerWith]
    exact .value _
  | application id s operands ih =>
    rw [lowerWith_application, lowerAllWith_eq_mapM]
    refine .knowing id (.bind (.within (.record _)) fun _ => .bind (.mapM ih) fun lowered => ?_)
    -- whatever the result is, it is remembered twice: for the node and for itself
    refine .bind ?_ fun result => .bind (.remember _ _) fun _ => .bind (.remember _ _) fun _ =>
      .value result
    refine .bind (.within (checkedExpansion?_raises points refuses s lowered)) fun expanded? => ?_
    cases expanded? with
    | some expanded => exact nested expanded
    | none =>
      dsimp only
      split
      · exact .value _
      · exact .within (newApplication_raises s lowered)

theorem lowerNext_raises (n : Node K) : RaisesOnly P (r.lowerNext n) := by
  -- expansions are lowered in their turn, so the induction is on how deep they may be nested
  have within (depth : Nat) : ∀ n, RaisesOnly P (r.lowerWithin depth n) := by
    induction depth with
    | zero => exact fun _ => .nesting
    | succ depth ih => exact lowerWith_raises points refuses ih
  exact within nestingLimit n

theorem lowerAll_raises (nodes : List (Node K)) : RaisesOnly P (r.lowerAll nodes) :=
  .starting (.mapM fun n _ => lowerNext_raises points refuses n) _

/-! ## Folding and substitution -/

theorem foldApplication_raises (s : Signature) (operands folded : List (Node K)) (kept : Node K) :
    RaisesOnly P (r.foldApplication s operands folded kept) := by
  rw [foldApplication]
  split
  · rename_i fold values _ _
    dsimp only
    split
    · rename_i differs
      exact .refuse (points _ (Error.pointed_wrongResult "fold" differs))
    · exact .bind (.record _) fun _ => newConstant_raises _
  · split
    · exact .value kept
    · exact rebuild_raises points refuses s folded

theorem foldNode_raises (n : Node K) : RaisesOnly P (r.foldNode n) := by
  induction n using Node.induct with
  | constant | leaf =>
    rw [foldNode]
    exact .value _
  | application id s operands ih =>
    rw [foldNode, foldNodes_eq_mapM]
    refine .knowing id (.bind (.mapM ih) fun folded => ?_)
    exact .bind (.within (foldApplication_raises points refuses s operands folded _)) fun result =>
      .bind (.remember _ _) fun _ => .value result

theorem refit_raises (id : NodeId) (s : Signature) (operands replaced : List (Node K)) :
    RaisesOnly P (r.refit id s operands replaced) := by
  rw [refit]
  split
  · exact .value _
  · exact .within (rebuild_raises points refuses s replaced)

theorem substituteNode_raises (n : Node K) : RaisesOnly P (r.substituteNode n) := by
  induction n using Node.induct with
  | constant | leaf =>
    rw [substituteNode]
    exact .knowing _ (.value _)
  | application id s operands ih =>
    rw [substituteNode_application]
    refine .knowing id (.bind (.mapM ih) fun replaced => ?_)
    exact .bind (refit_raises points refuses id s operands replaced) fun result =>
      .bind (.remember _ _) fun _ => .value result

/-! ## Differentiation -/

theorem differentiate_raises (wrt : Node K) (id : NodeId) (s : Signature)
    (operands : List (Node K)) {answer : Node K → Pass K (Node K)}
    (answers : ∀ n, RaisesOnly P (answer n)) :
    RaisesOnly P (r.differentiate wrt id s operands answer) := by
  rw [differentiate]
  split
  · exact .within (.refuse (points _ (Error.pointed_missingHook s "deriv" "derivative")))
  · rename_i deriv hook
    refine .bind (.within (.record _)) fun _ => .bind ?_ fun derived => ?_
    · exact Recipe.run_raises (fun c => .within (make_raises points refuses c)) answers
        fun e made => .within (.refuse (hooks_raise refuses (.deriv wrt operands hook made)))
    · split
      · rename_i differs
        exact .within (.refuse (points _ (Error.pointed_wrongResult "deriv" differs)))
      · exact .value derived

variable [Arithmetic K]

theorem deriveWith_raises {wrt : Node K} {again : Node K → Pass K (Node K)}
    (nested : ∀ n, RaisesOnly P (again n)) (n : Node K) :
    RaisesOnly P (r.deriveWith wrt again n) := by
  have recording {compute : Pass K (Node K)} (h : RaisesOnly P compute) (id : NodeId) :
      RaisesOnly P (do
        let derived ← compute
        Pass.remember id derived
        return derived) :=
    .bind h fun derived => .bind (.remember id derived) fun _ => .value derived
  induction n using Node.induct with
  | constant id v =>
    rw [deriveWith]
    exact .knowing _ (recording (.within (newConstant_raises _)) _)
  | leaf id name s =>
    rw [deriveWith]
    exact .knowing _ (recording (.within (newConstant_raises _)) _)
  | application id s operands ih =>
    rw [deriveWith]
    refine .knowing _ (recording (differentiate_raises points refuses wrt id s operands ?_) _)
    -- the hook may ask for an operand, which is smaller, or for a node that it has built
    intro n
    rcases answerDerivative_cases r wrt again operands n with ⟨m, hm, same⟩ | same
    · rw [same]
      exact ih m hm
    · rw [same]
      exact nested n

theorem deriveNext_raises (wrt n : Node K) : RaisesOnly P (r.deriveNext wrt n) := by
  have within (depth : Nat) : ∀ n, RaisesOnly P (r.deriveWithin wrt depth n) := by
    induction depth with
    | zero => exact fun _ => .nesting
    | succ depth ih => exact deriveWith_raises points refuses ih
  exact within nestingLimit n

/-! ## Gradients -/

omit [Arithmetic K] in
theorem accumulate_raises (total : Option (Node K)) (contribution : Node K) :
    RaisesOnly P (r.accumulate total contribution) := by
  cases total with
  | some total => exact make_raises points refuses (.apply "+" [total, contribution])
  | none => exact .value contribution

variable [Numeral K]

theorem contribute_raises (relevant : Std.HashSet NodeId) (c : Contribution K) :
    RaisesOnly P (r.contribute relevant c) := by
  rw [contribute]
  dsimp only
  split
  · rename_i differs
    exact .refusing (points _ (Error.pointed_wrongValue _ _ differs)) _
  · refine .bind (.within (.record _)) fun _ => ?_
    split
    · refine .bind .read fun now => ?_
      split
      · exact .bind (.within (accumulate_raises points refuses _ _)) fun total => .update _
      · exact .bind (.within (accumulate_raises points refuses _ _)) fun total => .update _
    · exact .value ()

theorem propagate_raises (relevant : Std.HashSet NodeId) (n : Node K) :
    RaisesOnly P (r.propagate relevant n) := by
  cases n with
  | constant | leaf => exact .value ()
  | application id s operands =>
    rw [propagate]
    refine .bind (.take _) fun incoming? => ?_
    cases incoming? with
    | none => exact .value ()
    | some incoming =>
      dsimp only
      split
      · exact .within (.record _)
      split
      · exact .within (.refuse (points _ (Error.pointed_missingHook s "gradient" "gradient")))
      · rename_i gradient hook
        refine .bind (.within (.record _)) fun _ => ?_
        have made (e : Error) (h : (gradient incoming operands).MakesUp e) : P e :=
          hooks_raise refuses (.gradient incoming operands hook h)
        exact Recipe.run_raises (fun c => .within (make_raises points refuses c))
          (contribute_raises points refuses relevant) fun e h => .within (.refuse (made e h))

omit refuses in
theorem checkDependencies_raises (leaves : List (Node K)) :
    RaisesOnly P (Work.ofExcept (leaves.forM checkDependency) : Work K Unit) := by
  refine .ofExcept fun e refused => ?_
  obtain ⟨n, _, refused⟩ := exists_of_forM_eq_error refused
  rw [checkDependency] at refused
  split at refused
  · cases refused
  · cases refused
    exact points _ (Error.pointed_notALeaf n.text "gradient dependency")

theorem backpropFrom_raises (root : Node K) (leaves : List (Node K)) (seed : Node K) :
    RaisesOnly P (r.backpropFrom root leaves seed) := by
  have swept (relevant : Std.HashSet NodeId) :
      RaisesOnly P (Work.starting (⟨∅, .empty⟩ : Flow K) do
        r.contribute relevant ⟨root, seed⟩
        root.postOrder.reverse.forM (r.propagate relevant)
        return (← get).2.gradients) :=
    .starting (.bind (contribute_raises points refuses relevant _) fun _ =>
      .bind (.forM (propagate_raises points refuses relevant)) fun _ =>
        .bind .read fun _ => .value _) _
  -- the sweep stands after the check of the seed, on both of its branches
  rw [backpropFrom]
  refine .bind (checkDependencies_raises points leaves) fun _ => ?_
  dsimp only
  split
  · rename_i differs
    exact .bind (.refuse (points _ (Error.pointed_wrongValue "seed" _ differs))) fun _ => swept _
  · exact swept _

theorem backprop_raises (root : Node K) (leaves : List (Node K)) :
    RaisesOnly P (r.backprop root leaves) :=
  .bind (newConstant_raises _) fun seed => backpropFrom_raises points refuses root leaves seed

/-! ## Whole passes -/

omit refuses in
theorem checkBindings_raises (bindings : List (Binding K)) :
    RaisesOnly P (Work.ofExcept (bindings.forM checkBinding) : Work K Unit) := by
  refine .ofExcept fun e refused => ?_
  obtain ⟨b, _, refused⟩ := exists_of_forM_eq_error refused
  rw [checkBinding] at refused
  split at refused
  · cases refused
    exact points _ (Error.pointed_notALeaf b.leaf.text "substituted node")
  · split at refused
    · rename_i name _ differs
      cases refused
      exact points _ (Error.pointed_wrongValue name "substitution" (Ne.symm differs))
    · cases refused

omit refuses in
theorem checkVariable_raises (wrt : Node K) :
    RaisesOnly P (Work.ofExcept (checkVariable wrt) : Work K Unit) := by
  refine .ofExcept fun e refused => ?_
  rw [checkVariable] at refused
  split at refused
  · cases refused
  · cases refused
    exact points _ (Error.pointed_notALeaf wrt.text "differentiation variable")

theorem substitute_raises (n : Node K) (bindings : List (Binding K)) :
    RaisesOnly P (r.substitute n bindings) :=
  .bind (checkBindings_raises points bindings) fun _ =>
    .starting (substituteNode_raises points refuses n) _

theorem derivative_raises (n wrt : Node K) : RaisesOnly P (r.derivative n wrt) :=
  .bind (checkVariable_raises points wrt) fun _ =>
    .starting (deriveNext_raises points refuses wrt n) _

theorem deriveAll_raises (wrt : Node K) (nodes : List (Node K)) :
    RaisesOnly P (r.deriveAll wrt nodes) :=
  .bind (checkVariable_raises points wrt) fun _ =>
    .starting (.mapM fun n _ => deriveNext_raises points refuses wrt n) _

theorem jacobian_raises (n : Node K) (leaves : List (Node K)) :
    RaisesOnly P (r.jacobian n leaves) :=
  .mapM fun wrt _ => derivative_raises points refuses n wrt

theorem evaluate_raises (n : Node K) (bindings : List (Binding K)) :
    RaisesOnly P (r.evaluate n bindings) :=
  .bind (substitute_raises points refuses n bindings) fun bound =>
    .bind (.starting (lowerNext_raises points refuses bound) _) fun lowered =>
      .starting (foldNode_raises points refuses lowered) _

end

/-! ## Source text -/

section

variable [Arithmetic K] [Numeral K] {target : Target}

omit [Arithmetic K] [Numeral K] in
/-- An operand that has no text yet is not the matter of an error. -/
theorem mapM_operandText_ne (texts : Texts) (operands : List (Node K)) :
    operands.mapM (operandText texts) ≠ .error (.error e) := by
  induction operands with
  | nil => exact nofun
  | cons n rest ih =>
    rw [List.mapM_cons]
    cases first : operandText texts n with
    | error f =>
      intro refused
      -- a text that is missing is a fault of another kind
      rw [operandText] at first
      split at first
      · cases first
      · cases first
        cases refused
    | ok text =>
      cases others : rest.mapM (operandText texts) with
      | error f =>
        intro refused
        cases refused
        exact ih others
      | ok items => exact nofun

theorem pointed_of_nodeText {texts : Texts} {n : Node K}
    (h : r.nodeText target texts n = .error (.error e)) : e.Pointed := by
  cases n with
  | constant | leaf => exact absurd h nofun
  | application id s operands =>
    rw [nodeText] at h
    split at h
    · cases h
      exact Error.pointed_missingRenderer s target.name
    · cases items : operands.mapM (operandText texts) with
      | error f =>
        rw [items] at h
        cases h
        exact absurd items (mapM_operandText_ne texts operands)
      | ok items =>
        rw [items] at h
        cases h

theorem pointed_of_lastText {nodes : List (Node K)} {texts : Texts} {text : String}
    (h : r.lastText target nodes texts text = .error (.error e)) : e.Pointed := by
  induction nodes generalizing texts text with
  | nil => exact absurd h nofun
  | cons n rest ih =>
    rw [lastText] at h
    cases first : r.nodeText target texts n with
    | error f =>
      rw [first] at h
      cases h
      exact pointed_of_nodeText first
    | ok text =>
      rw [first] at h
      exact ih h

theorem pointed_of_render {n : Node K} (h : r.render target n = .error (.error e)) : e.Pointed :=
  pointed_of_lastText h

end

end Registry

/-! ## Kernels -/

namespace Kernel

variable [Arithmetic K] [Numeral K] {r : Registry K} {target : Target}

theorem renderNode_raises (n : Node K) : RaisesOnly Error.Pointed (renderNode r target n) := by
  refine .bind .read fun emission => ?_
  refine .bind (.lift fun e => Registry.pointed_of_nodeText) fun text => ?_
  dsimp only
  split
  · exact .bind (.update _) fun _ => .value text
  · exact .value text

theorem emitNode_raises (uses : Std.HashMap NodeId Nat) (n : Node K) :
    RaisesOnly Error.Pointed (emitNode r target uses n) := by
  refine .bind (renderNode_raises n) fun text => ?_
  split
  · exact .bind (.take _) fun name => .bind (.update _) fun _ => .update _
  · exact .update _

theorem emitBlock_raises (uses : Std.HashMap NodeId Nat) (b : Block K) :
    RaisesOnly Error.Pointed (emitBlock r target uses b) := by
  refine .bind (.forM (emitNode_raises uses)) fun _ => .bind .read fun emission => ?_
  -- a root without text has not been emitted, which is a fault but not an error
  refine .bind (.lift fun e unrendered => ?_) fun text => .update _
  rw [Registry.operandText] at unrendered
  split at unrendered
  · cases unrendered
  · cases unrendered

theorem pointed_of_emit {k : Kernel K} {e : Error} (h : (k.emit r target).1 = .error (.error e)) :
    e.Pointed := by
  have raises : RaisesOnly Error.Pointed (k.blocks.forM (emitBlock r target k.useCounts)) :=
    .forM (emitBlock_raises k.useCounts)
  exact raises.of_run (Prod.ext h rfl)

end Kernel

end SymbolicLinalg
