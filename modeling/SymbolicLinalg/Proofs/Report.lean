import SymbolicLinalg.Proofs.Operator
import SymbolicLinalg.Proofs.Refusal

/-!
# Report — errors point at what they name

Whatever is asked of a registry, an error that comes back has a span for each of its labels, on the
part of the text that the label speaks of.  The hooks of the standard operators refuse operands
only, and point at them, so that an error of another kind is one that the hook of some other
operator has made up.

* `Recipe.Points`: a recipe refuses with errors that point at what they name;
* `Operator.points`: so do the hooks of the standard operators;
* `Registry.Refuses`: the errors that come back from a registry;
* `Registry.refuses_pointed`: they point at what they name, or a hook has made them up.
-/

namespace SymbolicLinalg

variable {K ρ σ α β : Type}

/-! ## Refusals of recipes -/

namespace Recipe

/-- Whatever error the recipe makes up points at what it names. -/
def Points (recipe : Recipe K ρ σ α) : Prop :=
  ∀ e, recipe.MakesUp e → e.Pointed

section

variable {recipe : Recipe K ρ σ α} {next : Node K → Recipe K ρ σ α} {operands : List (Node K)}

@[simp] theorem points_done (a : α) : (Recipe.done a : Recipe K ρ σ α).Points :=
  fun _ made => made.elim

@[simp] theorem points_make {c : Construction K} :
    (Recipe.make c next).Points ↔ ∀ n, (next n).Points :=
  ⟨fun h n e made => h e ⟨n, made⟩, fun h e ⟨n, made⟩ => h n e made⟩

@[simp] theorem points_ask {q : ρ} {next : σ → Recipe K ρ σ α} :
    (Recipe.ask q next).Points ↔ ∀ reply, (next reply).Points :=
  ⟨fun h reply e made => h e ⟨reply, made⟩, fun h e ⟨reply, made⟩ => h reply e made⟩

theorem points_refuseOperands (name : String) (operands : List (Node K)) :
    (Recipe.refuseOperands name operands : Recipe K ρ σ α).Points := by
  rintro e rfl
  exact Error.pointed_noOperator _ _ _

theorem Points.bind (h : recipe.Points) {next : α → Recipe K ρ σ β} (k : ∀ a, (next a).Points) :
    (recipe >>= next).Points := by
  induction recipe with
  | done a => exact k a
  | refuse e => exact h
  | make c rest ih => exact points_make.2 fun n => ih n (points_make.1 h n)
  | ask q rest ih => exact points_ask.2 fun reply => ih reply (points_ask.1 h reply)

theorem Points.map (h : recipe.Points) (f : α → β) : (f <$> recipe).Points :=
  h.bind fun a => points_done (f a)

theorem Points.each {f : β → Recipe K ρ σ α} (h : ∀ b, (f b).Points) (l : List β) :
    (Recipe.each f l).Points := by
  induction l with
  | nil => exact points_done []
  | cons b rest ih => exact (h b).bind fun a => ih.bind fun others => points_done (a :: others)

/-! ### The steps of hooks -/

@[simp] theorem points_build (c : Construction K) :
    (Recipe.build c : Recipe K ρ σ (Node K)).Points :=
  points_make.2 points_done

@[simp] theorem points_build_bind {c : Construction K} :
    (Recipe.build c >>= next).Points ↔ ∀ n, (next n).Points :=
  points_make

@[simp] theorem points_request (q : ρ) : (Recipe.request q : Recipe K ρ σ σ).Points :=
  points_ask.2 points_done

@[simp] theorem points_request_bind {q : ρ} {next : σ → Recipe K ρ σ α} :
    (Recipe.request q >>= next).Points ↔ ∀ reply, (next reply).Points :=
  points_ask

end

end Recipe

namespace Standard

open Recipe

theorem points_onOne {name : String} {f : Node K → Recipe K ρ σ α} (h : ∀ a, (f a).Points)
    (operands : List (Node K)) : (onOne name f operands).Points := by
  rw [onOne.eq_def]
  split
  · exact h _
  · exact points_refuseOperands _ _

theorem points_onTwo {name : String} {f : Node K → Node K → Recipe K ρ σ α}
    (h : ∀ a b, (f a b).Points) (operands : List (Node K)) : (onTwo name f operands).Points := by
  rw [onTwo.eq_def]
  split
  · exact h _ _
  · exact points_refuseOperands _ _

theorem points_firstOperand (name : String) (a : Node K) :
    (firstOperand name a : Recipe K ρ σ (Node K)).Points := by
  rw [firstOperand]
  split
  · exact points_done _
  · exact points_refuseOperands _ _

theorem points_ite {p : Prop} [Decidable p] {recipe other : Recipe K ρ σ α} (first : recipe.Points)
    (second : other.Points) : (if p then recipe else other).Points := by
  split
  · exact first
  · exact second

theorem points_foldingFirst {fold : List (Literal K) → Literal K}
    {rule : List (Node K) → Rule K (Option (Node K))} (h : ∀ operands, (rule operands).Points)
    (operands : List (Node K)) : (foldingFirst fold rule operands).Points := by
  rw [foldingFirst]
  split
  · exact (points_build _).bind fun n => points_done (some n)
  · exact h operands

theorem points_fillIn (positions : List Nat) (nodes : List (Node K)) (rest : Nat → K)
    (l : List Nat) : (fillIn positions nodes rest l : Recipe K ρ σ (List (Node K))).Points := by
  refine .each (fun i => ?_) l
  split
  · exact points_done _
  · exact points_build _

/-- Parts of a gradient go to operands. -/
theorem points_zipped (g : Node K) (places : List (Node K × Nat)) :
    (do
      let _ ← Recipe.each
        (fun (p : Node K × Nat) => do
          let part ← .select g p.2
          contribute p.1 part)
        places
      return : Recipe K (Contribution K) Unit Unit).Points :=
  (Points.each (fun _ => (points_build _).bind fun _ => points_request _) places).bind
    fun _ => points_done ()

section

variable [Arithmetic K]

theorem points_negated (s : Shape) (a : Node K) :
    (negated s a : Recipe K ρ σ (Node K)).Points := by
  rw [negated]
  split
  · exact points_build _
  · exact (points_build _).bind fun _ => points_build _

/-! ## Refusals of the standard hooks -/

variable [Numeral K]

namespace Operator

theorem points_optimize (o : Operator) {optimize : List (Node K) → Rule K (Option (Node K))}
    (hook : (o.definition : Definition K).hooks.optimize = some optimize)
    (operands : List (Node K)) : (optimize operands).Points := by
  -- a hook refuses operands of the wrong number, and then has constructions and results only
  have constant (v : Literal K) : (some <$> Recipe.constant v : Rule K (Option (Node K))).Points :=
    (points_build _).map some
  cases o with
  | addition | multiplication | division | matrixProduct =>
    cases hook
    exact points_foldingFirst (points_onTwo fun _ _ => points_done _) operands
  | subtraction s h =>
    cases hook
    refine points_foldingFirst (points_onTwo fun a b => ?_) operands
    exact points_ite (points_done _) (points_ite ((points_negated s b).map some) (points_done _))
  | negation | selector =>
    cases hook
    exact points_foldingFirst (points_onOne fun _ => points_done _) operands
  | cosine | sine | constructor =>
    cases hook
    exact points_foldingFirst (fun _ => points_done _) operands
  | scaling =>
    cases hook
    refine points_foldingFirst (points_onTwo fun _ _ => ?_) operands
    exact points_ite (constant _) (points_ite (points_done _) (points_done _))
  | innerProduct | columnProduct | outerProduct =>
    cases hook
    refine points_foldingFirst (points_onTwo fun _ _ => ?_) operands
    exact points_ite (constant _) (points_done _)
  | transposition =>
    cases hook
    refine points_foldingFirst (points_onOne fun a => ?_) operands
    exact points_ite ((points_firstOperand "trans" a).map some) (points_done _)
  | axisRotation =>
    cases hook
    exact points_onOne (fun _ => points_ite (constant _) (points_done _)) operands
  | axisAngleRotation =>
    cases hook
    exact points_onTwo (fun _ _ => points_ite (constant _) (points_done _)) operands
  | shift =>
    cases hook
    exact points_ite (constant _) (points_done _)
  | axisScaling =>
    cases hook
    exact points_ite (constant _) (points_ite (constant _) (points_done _))
  | fromHomogeneous => exact absurd hook nofun

theorem points_expand (o : Operator) {expand : List (Node K) → Rule K (Option (Node K))}
    (hook : (o.definition : Definition K).hooks.expand = some expand)
    (operands : List (Node K)) : (expand operands).Points := by
  cases o with
  | axisRotation id r h =>
    cases hook
    refine points_onOne (fun a => Points.map ?_ some) operands
    refine (points_build _).bind fun c => (points_build _).bind fun s => (points_build _).bind ?_
    intro negS
    refine (Points.each (fun cell => ?_) r.cells).bind fun _ => points_build _
    cases cell with
    | zero | one => exact points_build _
    | cos | sin | negSin => exact points_done _
  | shift | axisScaling =>
    cases hook
    exact (points_fillIn _ _ _ _).bind fun _ => (points_build _).map some
  | _ => exact absurd hook nofun

theorem points_replace (o : Operator) {replace : List (Node K) → Rule K (Node K)}
    (hook : (o.definition : Definition K).hooks.replace = some replace)
    (operands : List (Node K)) : (replace operands).Points := by
  cases o with
  | fromHomogeneous =>
    cases hook
    refine points_onOne (fun p => (points_build _).bind fun w => ?_) operands
    exact (Points.each (fun _ => (points_build _).bind fun _ => points_build _) _).bind
      fun _ => points_build _
  | _ => exact absurd hook nofun

theorem points_deriv (o : Operator)
    {deriv : Node K → List (Node K) → Recipe K (Node K) (Node K) (Node K)}
    (hook : (o.definition : Definition K).hooks.deriv = some deriv) (wrt : Node K)
    (operands : List (Node K)) : (deriv wrt operands).Points := by
  have derivatives : (Recipe.each derive operands : Recipe K (Node K) (Node K) _).Points :=
    .each (fun _ => points_request _) operands
  cases o with
  | addition | subtraction | multiplication | division | scaling | innerProduct | matrixProduct
  | columnProduct | outerProduct =>
    cases hook
    refine points_onTwo (fun a b => ?_) operands
    simp [productRule, derive, Recipe.add, Recipe.sub, Recipe.mul, Recipe.div, Recipe.dot,
      Recipe.outer, Recipe.apply]
  | negation | cosine | sine | selector | transposition | axisRotation =>
    cases hook
    refine points_onOne (fun a => ?_) operands
    simp [derive, Recipe.neg, Recipe.cos, Recipe.sin, Recipe.mul, Recipe.trans, Recipe.select,
      Recipe.apply]
  | constructor =>
    cases hook
    exact derivatives.bind fun _ => points_build _
  | shift | axisScaling =>
    cases hook
    exact derivatives.bind fun _ => (points_fillIn _ _ _ _).bind fun _ => points_build _
  | axisAngleRotation | fromHomogeneous => exact absurd hook nofun

theorem points_gradient (o : Operator)
    {gradient : Node K → List (Node K) → Recipe K (Contribution K) Unit Unit}
    (hook : (o.definition : Definition K).hooks.gradient = some gradient) (g : Node K)
    (operands : List (Node K)) : (gradient g operands).Points := by
  cases o with
  | subtraction s h =>
    cases hook
    refine points_onTwo (fun a b => (points_negated s g).bind fun minus => ?_) operands
    simp [contribute]
  | addition | multiplication | division | scaling | innerProduct | matrixProduct | columnProduct
  | outerProduct =>
    cases hook
    refine points_onTwo (fun a b => ?_) operands
    simp [contribute, Recipe.mul, Recipe.div, Recipe.neg, Recipe.dot, Recipe.trans, Recipe.outer,
      Recipe.apply]
  | negation | cosine | sine | selector | transposition | axisRotation =>
    cases hook
    refine points_onOne (fun a => ?_) operands
    simp [contribute, Recipe.neg, Recipe.cos, Recipe.sin, Recipe.mul, Recipe.trans, Recipe.dot,
      Recipe.constant, Recipe.apply]
  | constructor | shift | axisScaling =>
    cases hook
    exact points_zipped g _
  | axisAngleRotation | fromHomogeneous => exact absurd hook nofun

/-- The errors that the hooks of a standard operator make up point at what they name. -/
theorem points (o : Operator) {e : Error}
    (made : (o.definition : Definition K).hooks.MakesUp e) : e.Pointed := by
  cases made with
  | optimize operands hook made => exact o.points_optimize hook operands e made
  | expand operands hook made => exact o.points_expand hook operands e made
  | replace operands hook made => exact o.points_replace hook operands e made
  | deriv wrt operands hook made => exact o.points_deriv hook wrt operands e made
  | gradient g operands hook made => exact o.points_gradient hook g operands e made

end Operator

end

end Standard

/-! ## Errors that come back -/

/-- A definition that is built without having been resolved. -/
def Operation.built : Operation K → List (Definition K)
  | .build d _ => [d]
  | _ => []

/-- Something that is asked of the registry comes to the error.  The hooks that take part are those
of the registry and of the definitions that are built. -/
inductive Registry.Refuses [Arithmetic K] [Numeral K] (r : Registry K) :
    (built : List (Definition K)) → Error → Prop where
  | register {d : Definition K} {e : Error} : r.register d = .error e → Refuses r [] e
  | resolve {name : String} {operands : List Shape} {e : Error} :
      r.resolve name operands = .error e → Refuses r [] e
  | resolveAs {result : Shape} {name : String} {operands : List Shape} {e : Error} :
      r.resolveAs result name operands = .error e → Refuses r [] e
  | literal {s : Shape} {components : List K} {e : Error} :
      Literal.ofComponents s components = .error e → Refuses r [] e
  | target {name : String} {e : Error} : Target.ofName name = .error e → Refuses r [] e
  | operation {op : Operation K} {e : Error} {w w' : Workspace K} :
      (op.run r).runIn w = (.error (.error e), w') → Refuses r op.built e
  /-- Lowering, in a pass that may have lowered other nodes. -/
  | lowerNext {n : Node K} {e : Error} {s s' : Workspace K × Memo K} :
      (r.lowerNext n).run.run s = (.error (.error e), s') → Refuses r [] e
  | lowerAll {nodes : List (Node K)} {e : Error} {w w' : Workspace K} :
      (r.lowerAll nodes).runIn w = (.error (.error e), w') → Refuses r [] e
  /-- Differentiation, in a pass that may have differentiated other nodes. -/
  | deriveNext {wrt n : Node K} {e : Error} {s s' : Workspace K × Memo K} :
      (r.deriveNext wrt n).run.run s = (.error (.error e), s') → Refuses r [] e
  | deriveAll {wrt : Node K} {nodes : List (Node K)} {e : Error} {w w' : Workspace K} :
      (r.deriveAll wrt nodes).runIn w = (.error (.error e), w') → Refuses r [] e
  | jacobian {n : Node K} {leaves : List (Node K)} {e : Error} {w w' : Workspace K} :
      (r.jacobian n leaves).runIn w = (.error (.error e), w') → Refuses r [] e
  | evaluate {n : Node K} {bindings : List (Binding K)} {e : Error} {w w' : Workspace K} :
      (r.evaluate n bindings).runIn w = (.error (.error e), w') → Refuses r [] e
  | render {target : Target} {n : Node K} {e : Error} :
      r.render target n = .error (.error e) → Refuses r [] e
  | emit {k : Kernel K} {target : Target} {e : Error} :
      (k.emit r target).1 = .error (.error e) → Refuses r [] e

theorem Target.pointed_of_ofName {name : String} {e : Error} (h : Target.ofName name = .error e) :
    e.Pointed := by
  rw [Target.ofName] at h
  split at h
  · cases h
  · cases h
    exact Error.pointed_noTarget _ _

theorem Literal.pointed_of_ofComponents {s : Shape} {components : List K} {e : Error}
    (h : Literal.ofComponents s components = .error e) : e.Pointed := by
  rw [Literal.ofComponents] at h
  split at h
  · cases h
  · rename_i count
    cases h
    exact Error.pointed_wrongCount count

namespace Registry

variable [Arithmetic K] [Numeral K] {r : Registry K} {P : Error → Prop}

theorem operation_raises (points : ∀ e : Error, e.Pointed → P e) (op : Operation K)
    (refuses : ∀ d ∈ op.built ++ r.definitions, ∀ e, d.hooks.MakesUp e → P e) :
    RaisesOnly P (op.run r) := by
  have own (d : Definition K) (hd : d ∈ r.definitions) : ∀ e, d.hooks.MakesUp e → P e :=
    refuses d (List.mem_append_right op.built hd)
  have single {work : Work K (Node K)} (h : RaisesOnly P work) :
      RaisesOnly P (do return [← work]) :=
    h.bind fun n => .value [n]
  cases op with
  | make c => exact single (make_raises points own c)
  | build d operands =>
    exact single (build_raises points own (refuses d List.mem_cons_self) operands)
  | lower n => exact single (.starting (lowerNext_raises points own n) _)
  | fold n => exact single (.starting (foldNode_raises points own n) _)
  | substitute n bindings => exact single (substitute_raises points own n bindings)
  | derivative n wrt => exact single (derivative_raises points own n wrt)
  | backprop root leaves =>
    exact .bind (backprop_raises points own root leaves) fun _ => .value _
  | backpropFrom root leaves seed =>
    exact .bind (backpropFrom_raises points own root leaves seed) fun _ => .value _

/-- Errors point at what they name, or are made up by hooks of which the same is not known. -/
theorem Refuses.of_hooks {built : List (Definition K)} {e : Error} (h : r.Refuses built e)
    (points : ∀ e : Error, e.Pointed → P e)
    (refuses : ∀ d ∈ built ++ r.definitions, ∀ e, d.hooks.MakesUp e → P e) : P e := by
  have own (d : Definition K) (hd : d ∈ r.definitions) : ∀ e, d.hooks.MakesUp e → P e :=
    refuses d (List.mem_append_right built hd)
  cases h with
  | register refused => exact points e (pointed_of_register refused)
  | resolve refused => exact points e (pointed_of_resolve refused)
  | resolveAs refused => exact points e (pointed_of_resolveAs refused)
  | literal refused => exact points e (Literal.pointed_of_ofComponents refused)
  | target refused => exact points e (Target.pointed_of_ofName refused)
  | operation run => exact (operation_raises points _ refuses).of_run run
  | lowerNext run => exact (lowerNext_raises points own _).of_run run
  | lowerAll run => exact (lowerAll_raises points own _).of_run run
  | deriveNext run => exact (deriveNext_raises points own _ _).of_run run
  | deriveAll run => exact (deriveAll_raises points own _ _).of_run run
  | jacobian run => exact (jacobian_raises points own _ _).of_run run
  | evaluate run => exact (evaluate_raises points own _ _).of_run run
  | render refused => exact points e (pointed_of_render refused)
  | emit refused => exact points e (Kernel.pointed_of_emit refused)

/-- An error that comes back from a registry points at what it names, unless the hook of an operator
that is not a standard one has made it up.  A signature is laid out as it is written. -/
theorem refuses_pointed (r : Registry K) :
    (∀ built e, r.Refuses built e → e.Pointed ∨
      ∃ d ∈ built ++ r.definitions, d ∉ (Registry.standard : Registry K).definitions ∧
        d.hooks.MakesUp e) ∧
    ∀ s : Signature,
      Placement.write (some s.result) s.name s.operands = Placement.ofSignature s ∧
        (Placement.ofSignature s).text = s.text := by
  constructor
  · intro built e refused
    refine refused.of_hooks (P := fun e => e.Pointed ∨
      ∃ d ∈ built ++ r.definitions, d ∉ (Registry.standard : Registry K).definitions ∧
        d.hooks.MakesUp e) (fun _ => .inl) fun d hd e made => ?_
    -- the hooks of a standard operator point also in a registry of other operators
    by_cases standard : d ∈ (Registry.standard : Registry K).definitions
    · obtain ⟨o, rfl⟩ := Standard.exists_operator standard
      exact .inl (o.points made)
    · exact .inr ⟨d, hd, standard, made⟩
  · exact fun s => ⟨Placement.write_eq (some s.result) s.name s.operands, rfl⟩

/-- A name of characters of several bytes is pointed at as a whole, and so are the operands. -/
theorem refuses_pointed_nabla :
    let e := Error.noOperator "∇²" [.vec3, .mat44] []
    (Registry.empty : Registry Float).Refuses [] e ∧ e.spans = [⟨0, 5⟩, ⟨5, 18⟩] ∧ e.Pointed := by
  intro e
  have missing : (Registry.empty : Registry Float).resolve "∇²" [.vec3, .mat44] = .error e := by
    simp [resolve, candidates, suggestions, named, empty, Text.sorted, e]
  have refused := Refuses.resolve missing
  refine ⟨refused, by decide, ?_⟩
  rcases (refuses_pointed (Registry.empty : Registry Float)).1 [] e refused with pointed | made
  · exact pointed
  · obtain ⟨d, hd, _⟩ := made
    exact absurd hd List.not_mem_nil

end Registry

end SymbolicLinalg
