import SymbolicLinalg.Proofs.Computation
import SymbolicLinalg.Proofs.Emittable
import SymbolicLinalg.Proofs.Source

/-!
# Verbatim — lowering keeps the text

Of the operators that lowering takes apart only the rotation of the plane has a renderer.  It writes a
table of cells over the text of the angle, and its expansion is a constructor over nodes for the same
cells, which have renderers of their own.  The two come to the same text, character for character,
unless the angle is a constant: its cosine and its sine would be computed.

An angle that is no constant is not lowered to one, so this goes for rotations within the angles of
others as well.

* `expansion_written`: an expansion is written as the table of the rotation says;
* `lower_keeps_text`: an expression that can be rendered has the text of its lowered form.
-/

namespace SymbolicLinalg

namespace Standard

variable {K : Type} [Arithmetic K] [Numeral K] {target : Target} {o : Operator} {n m a : Node K}
  {given others operands lowered : List (Node K)}

/-! ## Applications that are not simplified -/

/-- The `optimize` hook declines without building anything. -/
def Operator.Stands (o : Operator) (operands : List (Node K)) : Prop :=
  ∀ optimize, (o.definition : Definition K).hooks.optimize = some optimize →
    optimize operands = .done none

/-- Where an operand is no constant, it is left to the rule of the operator whether it stands. -/
theorem Operator.stands_of_varies {fold : List (Literal K) → Literal K}
    {rule : List (Node K) → Rule K (Option (Node K))}
    (folds : (o.definition : Definition K).hooks.optimize = some (foldingFirst fold rule))
    (varies : ∃ m ∈ operands, m.isConstant = false) (declines : rule operands = .done none) :
    o.Stands operands := by
  intro optimize hook
  obtain rfl := Option.some.inj (folds.symm.trans hook)
  rw [foldingFirst, literals?_eq_none varies]
  exact declines

/-- Terms on which applications stay as they are written. -/
def standing : Recipe.Terms (Construction K) (Node K) where
  grant k p :=
    match k with
    | .constant v => ∀ id, p (.constant id v)
    | .apply name operands =>
        ∃ o : Operator, o.signature.name = name ∧
          operands.map Node.shape = o.signature.operands ∧ o.Stands operands ∧
          ∀ id, p (.application id o.signature operands)
    | .leaf _ _ | .applyFor _ _ _ => False
  mono {k p q} imp h := by
    cases k with
    | constant v => exact fun id => imp _ (h id)
    | apply name operands =>
        rcases h with ⟨o, rfl, shapes, stands, next⟩
        exact ⟨o, rfl, shapes, stands, fun id => imp _ (next id)⟩
    | leaf | applyFor => exact h

/-- The registry makes what stays as it is written. -/
theorem make_standing (k : Construction K) (p : Node K → Prop) (h : standing.grant k p) :
    Triple (fun _ => True) ((Registry.standard : Registry K).make k) (fun n _ => p n) never := by
  cases k with
  | constant v => exact newConstant_triple h
  | apply name operands =>
      rcases h with ⟨o, rfl, shapes, stands, next⟩
      rw [Registry.make_eq]
      refine makeWith_apply shapes (buildWith_of_simplify? shapes ?_)
      rw [Registry.simplify?]
      cases hook : (o.definition : Definition K).hooks.optimize with
      | none => exact .value fun _ _ => ⟨fun _ => next, offered_none⟩
      | some optimize =>
          dsimp only
          rw [stands optimize hook]
          exact .value fun _ _ => ⟨fun _ => next, offered_none⟩
  | leaf | applyFor => exact h.elim

/-- A step that applies an operator. -/
theorem ensures_standing {σ : Type} {rest : Node K → Rule K σ} {post : List Empty → σ → Prop}
    (o : Operator) (shapes : operands.map Node.shape = o.signature.operands)
    (stands : o.Stands operands)
    (next : ∀ id, (rest (.application id o.signature operands)).Ensures
      ⟨standing, .none Empty Empty⟩ post) :
    (Recipe.apply o.signature.name operands >>= rest).Ensures ⟨standing, .none Empty Empty⟩ post :=
  Recipe.Ensures.bind ⟨o, rfl, shapes, stands, next⟩

/-! ## The text of an expansion -/

/-- The text of an expression over the standard operators. -/
abbrev code (target : Target) (n : Node K) : String :=
  (Registry.standard : Registry K).code target n

theorem code_application (id : NodeId) (o : Operator) (operands : List (Node K)) :
    code target (.application id o.signature operands) =
      (((o.definition : Definition K).hooks.render target).getD fun _ => "")
        (operands.map (code target)) := by
  rw [code, Registry.code_application, Registry.renderer, o.hooks_eq]

/-- The node of a cell is a scalar, which is written as the cell is, and a cosine varies. -/
structure CellForm (target : Target) (angle : String) (cell : Cell) (n : Node K) : Prop where
  scalar : n.shape = .scalar
  written : code target n = AxisRotation.cellText (K := K) target angle cell
  varies : cell = .cos → n.isConstant = false

/-- What is known of the nodes of some cells. -/
structure CellForms (target : Target) (angle : String) (cells : List Cell) (ns : List (Node K)) :
    Prop where
  scalars : ns.map Node.shape = List.replicate cells.length .scalar
  written : ns.map (code target) = cells.map (AxisRotation.cellText (K := K) target angle)
  varies : .cos ∈ cells → ∃ m ∈ ns, m.isConstant = false

theorem cellForms {angle : String} {cells : List Cell} {parts : List (List Empty × Node K)}
    (forms : List.Forall₂ (fun cell part => CellForm target angle cell part.2) cells parts) :
    CellForms target angle cells (parts.map Prod.snd) := by
  induction forms with
  | nil => exact ⟨rfl, rfl, fun impossible => absurd impossible List.not_mem_nil⟩
  | cons first _ ih =>
      refine ⟨?_, ?_, fun cosine => ?_⟩
      · rw [List.map_cons, List.map_cons, first.scalar, ih.scalars]
        rfl
      · rw [List.map_cons, List.map_cons, List.map_cons, first.written, ih.written]
      · rw [List.map_cons]
        rcases List.mem_cons.1 cosine with same | cosine
        · exact ⟨_, List.mem_cons_self, first.varies same.symm⟩
        · rcases ih.varies cosine with ⟨m, hm, varies⟩
          exact ⟨m, List.mem_cons_of_mem _ hm, varies⟩

theorem AxisRotation.cos_mem_cells : ∀ r ∈ axisRotations, .cos ∈ r.cells := by
  decide

/-- Whatever the cell, its node is written as it is. -/
theorem cellNode_written {angle : String} {c s negS : Node K} (hc : CellForm target angle .cos c)
    (hs : CellForm target angle .sin s) (hnegS : CellForm target angle .negSin negS) (cell : Cell) :
    (AxisRotation.cellNode c s negS cell : Rule K (Node K)).Ensures ⟨standing, .none Empty Empty⟩
      fun _ n => CellForm target angle cell n := by
  cases cell with
  | zero | one => exact fun id => ⟨rfl, rfl, fun same => absurd same (by decide)⟩
  | cos => exact hc
  | sin => exact hs
  | negSin => exact hnegS

/-- Over an angle that varies the expansion of a rotation is written as its table of cells is. -/
theorem expansion_written {r : AxisRotation} (h : r ∈ axisRotations) (scalar : a.shape = .scalar)
    (varies : a.isConstant = false) :
    (r.expansion a : Rule K (Node K)).Ensures ⟨standing, .none Empty Empty⟩ fun _ n =>
      n.isConstant = false ∧ code target n = r.text K target [code target a] := by
  have angle : [a].map Node.shape = [.scalar] := by
    rw [List.map_singleton, scalar]
  have free : ∃ m ∈ [a], m.isConstant = false := ⟨a, List.mem_singleton_self a, varies⟩
  refine ensures_standing .cosine angle (Operator.stands_of_varies rfl free rfl) fun i => ?_
  refine ensures_standing .sine angle (Operator.stands_of_varies rfl free rfl) fun j => ?_
  -- a sine is no negation, so the minus sign stays before it
  refine ensures_standing .negation rfl
    (Operator.stands_of_varies rfl ⟨_, List.mem_singleton_self _, rfl⟩ rfl) fun k => ?_
  have cosine : CellForm target (code target a) .cos
      (.application i Operator.cosine.signature [a]) := by
    refine ⟨rfl, ?_, fun _ => rfl⟩
    rw [code_application]
    cases target <;> rfl
  have sine : CellForm target (code target a) .sin
      (.application j Operator.sine.signature [a]) := by
    refine ⟨rfl, ?_, fun _ => rfl⟩
    rw [code_application]
    cases target <;> rfl
  have negative : CellForm target (code target a) .negSin
      (.application k Operator.negation.signature
        [.application j Operator.sine.signature [a]]) := by
    refine ⟨rfl, ?_, fun _ => rfl⟩
    rw [code_application, List.map_singleton, sine.written]
    cases target <;> rfl
  refine Recipe.Ensures.bind ((Recipe.Ensures.each fun cell _ =>
    cellNode_written cosine sine negative cell).mono ?_)
  rintro asked ns ⟨parts, -, rfl, forms⟩
  have cells := cellForms forms
  have vector := Shape.isScalar_of_isMatrix (AxisRotation.cells_at_rest r h).1
  have shapes : (parts.map Prod.snd).map Node.shape =
      (Operator.constructor r.shape vector).signature.operands := by
    rw [cells.scalars, r.cells_length h]
    rfl
  refine ⟨.constructor r.shape vector, rfl, shapes, ?_, fun id => ⟨rfl, ?_⟩⟩
  · exact Operator.stands_of_varies rfl (cells.varies (r.cos_mem_cells h)) rfl
  · rw [code_application, cells.written, AxisRotation.text, String.intercalate_singleton]
    cases target <;> rfl

/-! ## What is rendered and lowered -/

theorem AxisRotation.name_of_rendered : ∀ r ∈ axisRotations, r.rendered = true →
    r.name = "mat33RotationZ" := by
  decide

/-- Of the operators that lowering takes apart, rotations alone may be rendered. -/
theorem Operator.axisRotation_of_renders
    (renders : (Registry.standard : Registry K).Renders target o.signature)
    (high : ¬ IsPlain o.signature.name) :
    ∃ id r h, o = .axisRotation id r h ∧ r.rendered = true := by
  rw [Registry.Renders, o.hooks_eq] at renders
  rcases o.hooks_of_not_isPlain (K := K) high with ⟨-, expand, hook⟩ | same
  · cases o with
    | axisRotation id r h =>
        refine ⟨id, r, h, rfl, ?_⟩
        by_contra silent
        rw [Operator.definition, AxisRotation.definition] at renders
        simp [silent] at renders
    | shift | axisScaling => exact absurd renders Bool.false_ne_true
    | _ => cases hook
  · subst same
    exact absurd renders Bool.false_ne_true

/-- The expansion of an operator that is rendered has the text of the application it stands for. -/
theorem checkedExpansion?_written
    (renders : (Registry.standard : Registry K).Renders target o.signature)
    (shapes : lowered.map Node.shape = o.signature.operands)
    (varies : o.signature.name = "mat33RotationZ" → ∀ m ∈ lowered, m.isConstant = false)
    (id : NodeId) :
    Triple (fun _ => True) ((Registry.standard : Registry K).checkedExpansion? o.signature lowered)
      (fun n? _ => ∀ n ∈ n?, n.isConstant = false ∧
        code target n = code target (.application id o.signature lowered)) fun _ _ => True := by
  rw [Registry.checkedExpansion?, Registry.expansion?, o.hooks_eq]
  by_cases plain : IsPlain o.signature.name
  · rcases o.hooks_of_isPlain (K := K) plain with ⟨noReplace, noExpand⟩
    rw [noReplace, noExpand]
    exact .value fun _ _ => offered_none
  · rcases Operator.axisRotation_of_renders renders plain with ⟨position, r, h, rfl, rendered⟩
    have listed := List.mem_of_getElem? h
    rcases List.map_eq_singleton_iff.1 shapes with ⟨a, rfl, scalar⟩
    have angle := List.forall_mem_singleton.1 (varies (r.name_of_rendered listed rendered))
    -- what is written for the application is the table of the rotation
    have table : code target (.application id
        (Operator.axisRotation position r h).signature [a]) = r.text K target [code target a] := by
      rw [code_application, Operator.definition, AxisRotation.definition, if_pos rendered]
      cases target <;> rfl
    have expands : Triple (fun _ => True)
        (Registry.follow (Registry.standard : Registry K).make (some <$> r.expansion a))
        (fun n? _ => ∃ n, n? = some n ∧ n.isConstant = false ∧
          code target n = r.text K target [code target a]) fun _ _ => True :=
      (follow_triple make_standing (.map ((expansion_written listed scalar angle).mono
        fun _ n hn => ⟨n, rfl, hn⟩))).weaken (fun _ h => h) (fun _ _ h => h) fun _ _ => False.elim
    refine Triple.bind (m := fun answer _ => ∃ n, answer = some ("expand", n) ∧
      n.isConstant = false ∧ code target n = r.text K target [code target a])
      (expands.bind fun n? => .value ?_) fun answer => ?_
    · rintro w ⟨n, rfl, hn⟩
      exact ⟨n, rfl, hn⟩
    · rintro w ⟨n, rfl, varies, written⟩
      dsimp only
      split
      · trivial
      · intro m hm
        obtain rfl := Option.some.inj hm
        exact ⟨varies, written.trans table.symm⟩

/-! ## The pass -/

/-- No rotation of the plane is by a constant angle. -/
def VariableAngles (n : Node K) : Prop :=
  n.Everywhere fun s operands => s.name = "mat33RotationZ" → ∀ a ∈ operands, a.isConstant = false

/-- A lowered form has the shape and the text of what was lowered, and is a constant only if that was
one. -/
structure VerbatimForm (target : Target) (given : List (Node K)) (n m : Node K) : Prop where
  below : Node.Below given m
  made : OfShape n.shape m
  written : code target m = code target n
  varies : n.isConstant = false → m.isConstant = false

def verbatimForm (target : Target) : FormRelation K where
  holds := VerbatimForm target
  below h := h.below
  mono sub h := { h with below := h.below.mono sub }
  self h := ⟨h.below, ⟨h.made.typed, rfl⟩, rfl, id⟩

/-- What is known of the forms of operands. -/
structure VerbatimForms (target : Target) (operands lowered : List (Node K)) : Prop where
  made : List.Forall₂ OfShape (operands.map Node.shape) lowered
  written : lowered.map (code target) = operands.map (code target)
  varies : (∀ n ∈ operands, n.isConstant = false) → ∀ m ∈ lowered, m.isConstant = false

theorem verbatimForms (forms : List.Forall₂ (VerbatimForm target given) operands lowered) :
    VerbatimForms target operands lowered := by
  induction forms with
  | nil => exact ⟨.nil, rfl, fun _ m hm => absurd hm List.not_mem_nil⟩
  | cons first _ ih =>
      refine ⟨.cons first.made ih.made, ?_, fun vary => ?_⟩
      · rw [List.map_cons, List.map_cons, first.written, ih.written]
      · rw [List.forall_mem_cons] at vary
        exact List.forall_mem_cons.2 ⟨first.varies vary.1, ih.varies vary.2⟩

/-- What is assumed of an expression that is lowered. -/
structure Renderable (target : Target) (n : Node K) : Prop where
  typed : Typed n
  renders : n.AppliesOnly ((Registry.standard : Registry K).Renders target)
  angles : VariableAngles n

theorem Renderable.of_reaches (h : Renderable target n) (below : n.Reaches m) :
    Renderable target m :=
  ⟨h.typed.of_reaches below, h.renders.of_reaches below, h.angles.of_reaches below⟩

theorem Primitive.renderable (primitive : Primitive n) (typed : Typed n) :
    Renderable target n where
  typed := typed
  renders := primitive.renders typed target
  angles id s operands below name := by
    have plain : IsPlain s.name := primitive id s operands below
    rw [name] at plain
    exact absurd plain (by decide)

/-- What the hooks answer over the lowered operands of an application: nothing, if its operator is
plain, and else an expansion with the text of the application. -/
structure VerbatimAnswer (target : Target) (id : NodeId) (o : Operator) (operands : List (Node K))
    (n? : Option (Node K)) : Prop where
  plain : n? = none → IsPlain o.signature.name
  made : ∀ n ∈ n?, OfShape o.signature.result n ∧ Primitive n
  written : ∀ n ∈ n?, n.isConstant = false ∧
    code target n = code target (.application id o.signature operands)

theorem checkedExpansion?_verbatim (id : NodeId)
    (renders : (Registry.standard : Registry K).Renders target o.signature)
    (made : List.Forall₂ OfShape o.signature.operands lowered)
    (varies : o.signature.name = "mat33RotationZ" → ∀ m ∈ lowered, m.isConstant = false)
    (below : ∀ m ∈ lowered, Node.Below given m) :
    Triple (fun w => Stock IsPlain given others w.nextId)
      ((Registry.standard : Registry K).checkedExpansion? o.signature lowered)
      (fun n? w => VerbatimAnswer target id o lowered n? ∧
        Stock IsPlain (n?.toList ++ given) others w.nextId) fun _ _ => True := by
  have some_assignment : Assignment K := fun _ => .zero .scalar
  have shapes := shapes_ofShape made
  have denotes := DenoteAll.of_typed (Φ := False) (ρ := some_assignment) (typed_ofShape made)
    False.elim
  rw [shapes] at denotes
  refine ((checkedExpansion?_triple denotes below fun _ => False.elim).both
    (checkedExpansion?_written renders shapes varies id)).weaken (fun _ stock => ⟨stock, trivial⟩)
      ?_ fun _ _ _ => trivial
  rintro n? w ⟨expanded, written⟩
  cases n? with
  | none => exact ⟨⟨fun _ => expanded.1, offered_none, written⟩, expanded.2⟩
  | some n =>
      rcases expanded with ⟨_, hn, stock⟩
      refine ⟨⟨fun none => absurd none (Option.some_ne_none n), offered_some ?_, written⟩, stock⟩
      exact ⟨⟨hn.typed, hn.shape⟩, stock.only n List.mem_cons_self⟩

/-- What becomes of an application over forms of its operands has the text of the application. -/
theorem rewrite_verbatim {again : Node K → Pass K (Node K)} {id : NodeId}
    (nested : ∀ n, Renderable target n →
      Lowers (verbatimForm target) IsPlain [] others (fun _ _ => True) again n)
    (renderable : Renderable target (.application id o.signature operands))
    (shapes : operands.map Node.shape = o.signature.operands)
    (below : Node.Below (given ++ others) (.application id o.signature operands))
    (forms : List.Forall₂ (VerbatimForm target given) operands lowered) :
    Triple (Recalls (verbatimForm target) IsPlain given others)
      ((Registry.standard : Registry K).rewrite again id o.signature operands lowered)
      (fun m s' => ∃ more, given ⊆ more ∧
        VerbatimForm target more (.application id o.signature operands) m ∧
        Recalls (verbatimForm target) IsPlain more others s') fun _ _ => True := by
  have renders := (Node.appliesOnly_application.1 renderable.renders).1
  have angles := (Node.everywhere_application.1 renderable.angles).1
  have known := verbatimForms forms
  have made : List.Forall₂ OfShape o.signature.operands lowered := shapes ▸ known.made
  have belowLowered := FormRelation.forall_below (F := verbatimForm target) forms
  -- the renderer is given the same texts
  have same (i : NodeId) : code target (.application i o.signature lowered) =
      code target (.application id o.signature operands) := by
    rw [code_application, code_application, known.written]
  refine rewrite_triple (F := verbatimForm target) (VerbatimAnswer target id o lowered) forms below
    (List.nil_subset given) (fun memo => ?_) (fun answer => answer.plain rfl) ?_ ?_ ?_
  · exact (checkedExpansion?_verbatim id renders made (fun name => known.varies (angles name))
      belowLowered).strengthen fun w h => h.stock
  · intro _ i more _ here
    exact ⟨here, ofShape_application o i made, same i, fun _ => rfl⟩
  · intro n answer
    rcases answer.made n rfl with ⟨made, primitive⟩
    exact nested n (primitive.renderable made.typed)
  · intro n m more answer form
    rcases answer.written n rfl with ⟨varies, written⟩
    have shape := form.made.shape.trans (answer.made n rfl).1.shape
    refine ⟨form.below, ⟨form.made.typed, shape⟩, ?_, fun _ => form.varies varies⟩
    calc code target m = code target n := form.written
      _ = code target (.application id o.signature lowered) := written
      _ = code target (.application id o.signature operands) := same id

theorem lowerWith_verbatim {again : Node K → Pass K (Node K)}
    (nested : ∀ n, Renderable target n →
      Lowers (verbatimForm target) IsPlain [] others (fun _ _ => True) again n)
    (renderable : Renderable target n) :
    Lowers (verbatimForm target) IsPlain [] others (fun _ _ => True)
      ((Registry.standard : Registry K).lowerWith again) n := by
  refine lowerWith_triple (P := Renderable target)
    (fun n h m hm => h.of_reaches (.of_mem_operands hm)) ?_ ?_ renderable
  · intro n h plain
    exact lowers_itself (Node.appliesOnly_of_plain plain) fun _ here =>
      ⟨here, ⟨h.typed, rfl⟩, rfl, id⟩
  · intro id s operands lowered given h _ below forms
    rcases h.typed.operator with ⟨o, rfl, shapes, _⟩
    exact rewrite_verbatim nested h shapes below forms

/-- A form of what is lowered has the same text, however deeply rotations are nested. -/
theorem lower_verbatim (renderable : Renderable target n) (coherent : Node.Coherent [n]) :
    Triple (fun w => n.Older w.nextId) ((Registry.standard : Registry K).lower n)
      (fun m _ => code target m = code target n) fun _ _ => True := by
  have lowers : Lowers (verbatimForm target) IsPlain [] [n] (fun _ _ => True)
      (Registry.standard : Registry K).lowerNext n :=
    lowerNext_triple (fun _ nested _ => lowerWith_verbatim nested) (fun _ _ _ _ => trivial)
      renderable
  have below : Node.Below ([] ++ [n]) n := .of_mem (List.mem_singleton_self n)
  refine Triple.starting ((lowers [] (List.nil_subset []) below).weaken ?_ ?_ fun _ _ h => h)
  · rintro ⟨w, memo⟩ ⟨older, rfl⟩
    exact .empty ⟨coherent, List.forall_mem_singleton.2 older, by simp⟩
  · exact fun m s ⟨_, _, form, _⟩ => form.written

/-- Lowering keeps the text of every expression that can be rendered as it is, for each of the
targets, if no rotation of the plane in it is by a constant angle. -/
theorem lower_keeps_text {e : Node K} (typed : e.WellTyped (Registry.standard : Registry K).Knows)
    (coherent : Node.Coherent [e]) (angles : VariableAngles e) (w : Workspace K)
    (older : e.Older w.nextId) :
    ∃ m w', ((Registry.standard : Registry K).lower e).runIn w = (.ok m, w') ∧
      ∀ target text, (Registry.standard : Registry K).render target e = .ok text →
        (Registry.standard : Registry K).render target m = .ok text := by
  rcases (lower_plainForm typed coherent (List.mem_singleton_self e)).runIn_eq_ok
    (List.forall_mem_singleton.2 older) with ⟨m, w', run, form, together, _⟩
  refine ⟨m, w', run, fun target text rendered => ?_⟩
  have renders := (render_as_tree .standard target coherent).succeeds.1 ⟨text, rendered⟩
  have same := (lower_verbatim ⟨typed, renders, angles⟩ coherent).of_runIn_eq_ok older run
  have alone : Node.Coherent [m] := together.of_subset (by simp)
  calc (Registry.standard : Registry K).render target m = .ok (code target m) :=
        render_eq_code alone (form.primitive.renders form.typed target)
    _ = .ok (code target e) := congrArg Except.ok same
    _ = (Registry.standard : Registry K).render target e := (render_eq_code coherent renders).symm
    _ = .ok text := rendered

/-- A rotation of the plane by the sine of an angle, which is taken out of the rotation by that
angle. -/
theorem lower_keeps_text_nested :
    let rotation : Operator := .axisRotation 0 .planar rfl
    let component : Operator := .selector .mat33 rfl 1 (by decide)
    let t : Node Float := .leaf 4 "t" .scalar
    let inner : Node Float := .application 5 rotation.signature [t]
    let sine : Node Float := .application 6 component.signature [inner]
    let outer : Node Float := .application 7 rotation.signature [sine]
    (∀ target, ∃ text, (Registry.standard : Registry Float).render target outer = .ok text) ∧
      ∃ m w', ((Registry.standard : Registry Float).lower outer).runIn ⟨8, #[]⟩ = (.ok m, w') ∧
        ∀ target text, (Registry.standard : Registry Float).render target outer = .ok text →
          (Registry.standard : Registry Float).render target m = .ok text := by
  intro rotation component t inner sine outer
  have typedInner : Typed inner :=
    typed_application rotation 5 rfl (List.forall_mem_singleton.2 (.leaf 4 "t" .scalar))
  have typedSine : Typed sine :=
    typed_application component 6 rfl (List.forall_mem_singleton.2 typedInner)
  have typed : Typed outer :=
    typed_application rotation 7 rfl (List.forall_mem_singleton.2 typedSine)
  let nodes := [outer, sine, inner, t]
  have closed : ∀ n ∈ nodes, ∀ m ∈ n.operands, m ∈ nodes := by
    simp [nodes, outer, sine, inner, t]
  have coherent : Node.Coherent [outer] :=
    (Node.Coherent.of_closed closed (by simp [nodes, outer, sine, inner, t])).of_subset
      (by simp [nodes])
  have early : ∀ n ∈ nodes, n.id < 8 := by
    simp [nodes, outer, sine, inner, t]
  have older : outer.Older 8 :=
    fun x below => early x (below.mem_of_closed closed List.mem_cons_self)
  -- the angles are a leaf and an application
  have vary {o : Operator} {id : NodeId} {a : Node Float} (varies : a.isConstant = false)
      (angles : VariableAngles a) : VariableAngles (.application id o.signature [a]) :=
    Node.everywhere_application.2
      ⟨fun _ => List.forall_mem_singleton.2 varies, List.forall_mem_singleton.2 angles⟩
  have angles : VariableAngles outer :=
    vary rfl (vary rfl (vary rfl (Node.everywhere_of_plain rfl)))
  have renders (target : Target) :
      outer.AppliesOnly ((Registry.standard : Registry Float).Renders target) := by
    have rotated : (Registry.standard : Registry Float).Renders target rotation.signature := by
      rw [Registry.Renders, rotation.hooks_eq]
      cases target <;> rfl
    have taken : (Registry.standard : Registry Float).Renders target component.signature := by
      rw [Registry.Renders, component.hooks_eq]
      cases target <;> rfl
    exact Node.appliesOnly_application.2 ⟨rotated, List.forall_mem_singleton.2
      (Node.appliesOnly_application.2 ⟨taken, List.forall_mem_singleton.2
        (Node.appliesOnly_application.2 ⟨rotated, List.forall_mem_singleton.2
          (Node.appliesOnly_of_plain rfl)⟩)⟩)⟩
  exact ⟨fun target => ⟨_, render_eq_code coherent (renders target)⟩,
    lower_keeps_text typed coherent angles ⟨8, #[]⟩ older⟩

end Standard

end SymbolicLinalg
