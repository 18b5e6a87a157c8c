import SymbolicLinalg.Proofs.Lowered
import SymbolicLinalg.Proofs.NormalForm
import SymbolicLinalg.Proofs.Progress
import SymbolicLinalg.Proofs.SameTree

/-!
# Relowering — lowering with and without a memory

A pass that has lowered other nodes before comes to the form that it would have found without: what it
remembers for a node has the tree that lowering the node without a memory comes to.  An expansion
consists of plain operators, so it is its own lowered form, and so is whatever has been lowered.

* `Registry.lowerAnew`: lowering that does not remember anything;
* `Relowers`: a pass comes to the same, remembers it and visits no node twice;
* `lowerNext_relowers`: the lowering pass does so.
-/

namespace SymbolicLinalg

variable {K : Type}

namespace Registry

mutual

/-- Lowers a node over and over, wherever it occurs.  An expansion is taken as it is. -/
def lowerAnew (r : Registry K) (n : Node K) : Work K (Node K) :=
  match n with
  | .constant id value => return .constant id value
  | .leaf id name shape => return .leaf id name shape
  | .application _ s operands => do
      let lowered ← lowerAllAnew r operands
      match ← r.checkedExpansion? s lowered with
      | some expanded => return expanded
      | none => Node.newApplication s lowered

def lowerAllAnew (r : Registry K) (nodes : List (Node K)) : Work K (List (Node K)) :=
  match nodes with
  | [] => return []
  | n :: rest => do
      let lowered ← lowerAnew r n
      let others ← lowerAllAnew r rest
      return lowered :: others

end

end Registry

namespace Standard

variable [Arithmetic K] [Numeral K] {ρ : Assignment K} {n m : Node K}
  {given more others operands lowered : List (Node K)} {s : Signature}

/-! ## Without a memory -/

/-- Lowering the node without a memory comes to the tree of the other. -/
def LoweredAnew (n m : Node K) : Prop :=
  Triple (fun _ => True) ((Registry.standard : Registry K).lowerAnew n)
    (fun d _ => m.SameTree d) never

theorem loweredAnew_operands (h : List.Forall₂ LoweredAnew operands lowered) :
    Triple (fun _ => True) ((Registry.standard : Registry K).lowerAllAnew operands)
      (fun ds _ => List.Forall₂ Node.SameTree lowered ds) never := by
  induction h with
  | nil => exact .value fun _ _ => .nil
  | cons first _ ih =>
      rw [Registry.lowerAllAnew]
      refine first.bind fun d w same => ?_
      exact (Triple.bind ih fun ds => .value fun _ rest => .cons same rest) w trivial

/-- What hooks made of some operands once, they make of others like them. -/
theorem checkedExpansion?_again {ds : List (Node K)} {n? : Option (Node K)}
    (same : List.Forall₂ Node.SameTree lowered ds)
    (once : ∃ w, (((Registry.standard : Registry K).checkedExpansion? s lowered).run.run w).1 =
      .ok n?) :
    Triple (fun _ => True) ((Registry.standard : Registry K).checkedExpansion? s ds)
      (fun d? _ => Option.Rel Node.SameTree n? d?) never := by
  rcases once with ⟨w, answered⟩
  intro w' _
  have alike := checkedExpansion?_tandem (F := sameTrees K) (u := .world) (s := s) same w w' trivial
  revert alike answered
  rcases ((Registry.standard : Registry K).checkedExpansion? s lowered).run.run w with ⟨_, _⟩
  rcases ((Registry.standard : Registry K).checkedExpansion? s ds).run.run w' with ⟨_, _⟩
  rintro ⟨⟩ ⟨_, same, _⟩
  exact same

/-- An application is lowered anew to the tree that it has been lowered to, from the forms of its
operands and what has become of them. -/
theorem loweredAnew_application {n? : Option (Node K)} (i : NodeId)
    (forms : List.Forall₂ LoweredAnew operands lowered)
    (once : ∃ w, (((Registry.standard : Registry K).checkedExpansion? s lowered).run.run w).1 =
      .ok n?) :
    match n? with
    | some e => LoweredAnew (.application i s operands) e
    | none => ∀ j, LoweredAnew (.application i s operands) (.application j s lowered) := by
  have expands (m : Node K) (h : ∀ ds, List.Forall₂ Node.SameTree lowered ds →
      ∀ d?, Option.Rel Node.SameTree n? d? → Triple (fun _ => True) (match d? with
        | some expanded => return expanded
        | none => Node.newApplication s ds : Work K (Node K)) (fun d _ => m.SameTree d) never) :
      LoweredAnew (.application i s operands) m := by
    rw [LoweredAnew, Registry.lowerAnew]
    refine (loweredAnew_operands forms).bind fun ds w same => ?_
    exact Triple.bind (checkedExpansion?_again same once)
      (fun d? w' related => h ds same d? related w' trivial) w trivial
  cases n? with
  | some e =>
      refine expands e fun ds _ d? related => ?_
      cases related with
      | some same => exact .value fun _ _ => same
  | none =>
      refine fun j => expands _ fun ds same d? related => ?_
      cases related with
      | none => exact fun w _ => Node.sameTree_application _ _ s same

/-- Where nothing is to be lowered, lowering comes to the same tree. -/
theorem loweredAnew_self (typed : Typed n) (primitive : Primitive n) : LoweredAnew n n := by
  induction n using Node.induct with
  | constant | leaf =>
      rw [LoweredAnew, Registry.lowerAnew]
      exact .value fun _ _ => rfl
  | application id s operands ih =>
      rcases Node.appliesOnly_application.1 primitive with ⟨plain, parts⟩
      have forms : List.Forall₂ LoweredAnew operands operands :=
        List.forall₂_same.2 fun m hm => ih m hm (typed.of_mem_operands hm) (parts m hm)
      rcases Typed.operator typed with ⟨o, rfl, _⟩
      rcases o.hooks_of_isPlain (K := K) plain with ⟨noReplace, noExpand⟩
      have once : ∃ w, (((Registry.standard : Registry K).checkedExpansion? o.signature
          operands).run.run w).1 = .ok none := by
        refine ⟨⟨0, #[]⟩, ?_⟩
        rw [Registry.checkedExpansion?, Registry.expansion?, o.hooks_eq, noReplace, noExpand]
        rfl
      exact loweredAnew_application id forms once id

/-! ## The invariant -/

/-- A lowered form: what lowering without a memory comes to.  A node that has nothing to be lowered is
its own form. -/
structure Relowered (ρ : Assignment K) (given : List (Node K)) (n m : Node K) : Prop where
  form : LoweredTo False ρ given n m
  primitive : Primitive m
  anew : LoweredAnew n m
  kept : Primitive n → m = n

def relowered (ρ : Assignment K) : FormRelation K where
  holds := Relowered ρ
  below h := h.form.below
  mono sub h := { h with form := (loweredTo False ρ).mono sub h.form }
  self h := ⟨(loweredTo False ρ).self h.form, h.primitive,
    loweredAnew_self h.form.denotes.typed h.primitive, fun _ => rfl⟩

/-- What is touched when a node is lowered: the nodes below it, and, if there is anything to be
lowered, forms. -/
def Near (given : List (Node K)) (n : Node K) (id : NodeId) : Prop :=
  n.Covers id ∨ ¬ Primitive n ∧ ∃ x, Node.Below given x ∧ x.id = id

omit [Arithmetic K] [Numeral K] in
theorem Near.mono {id : NodeId} (h : Near given n id) (sub : given ⊆ more) : Near more n id :=
  h.imp_right fun ⟨lowers, x, below, same⟩ => ⟨lowers, x, below.mono sub, same⟩

omit [Arithmetic K] [Numeral K] in
theorem Near.of_mem_operands {id : NodeId} (h : Near given m id) (operand : m ∈ n.operands) :
    Near given n id :=
  h.imp (·.of_mem_operands operand) fun h =>
    ⟨fun primitive => h.1 (primitive.of_reaches (.of_mem_operands operand)), h.2⟩

/-- A node is lowered to a form, which is remembered for it if it is an application. -/
def Relowers (ρ : Assignment K) (others : List (Node K)) (lower : Node K → Pass K (Node K))
    (n : Node K) : Prop :=
  ∀ given start, Node.Below (given ++ others) n →
    Recalls (relowered ρ) IsPlain given others start →
      Settles (fun m s => ∃ more, given ⊆ more ∧ Relowered ρ more n m ∧
          Recalls (relowered ρ) IsPlain more others s ∧
          Progress (Near more n) (fun _ => False) start s ∧
          (n.isApplication = true → s.2[n.id]? = some m))
        never ((lower n).run.run start)

/-! ## The pass -/

variable {again : Node K → Pass K (Node K)} {start : Workspace K × Memo K} {id : NodeId}

theorem primitive_forms (forms : List.Forall₂ (Relowered ρ given) operands lowered) :
    ∀ m ∈ lowered, Primitive m := by
  induction forms with
  | nil => exact fun m hm => absurd hm List.not_mem_nil
  | cons form _ ih => exact List.forall_mem_cons.2 ⟨form.primitive, ih⟩

/-- Operands that have nothing to be lowered are their own forms. -/
theorem forms_of_primitive (forms : List.Forall₂ (Relowered ρ given) operands lowered)
    (primitive : ∀ m ∈ operands, Primitive m) : lowered = operands := by
  induction forms with
  | nil => rfl
  | cons form _ ih =>
      rw [List.forall_mem_cons] at primitive
      rw [form.kept primitive.1, ih primitive.2]

/-- A plain application over forms is a form of the application. -/
theorem Relowered.application {o : Operator} (shapes : operands.map Node.shape = o.signature.operands)
    (plain : IsPlain o.signature.name) (forms : List.Forall₂ (Relowered ρ given) operands lowered)
    (once : ∃ w, (((Registry.standard : Registry K).checkedExpansion? o.signature
      lowered).run.run w).1 = .ok none) (i j : NodeId)
    (same : Primitive (.application i o.signature operands) →
      (.application j o.signature lowered : Node K) = .application i o.signature operands)
    (here : Node.Below more (.application j o.signature lowered)) :
    Relowered ρ more (.application i o.signature operands) (.application j o.signature lowered) where
  form := by
    have denotes := denotes_lowered (forms.imp fun _ _ h => h.form)
    rw [shapes] at denotes
    refine ⟨here, (Denotes.application o j denotes).of_eq fun _ => ?_⟩
    exact (Node.value_application Standard.meaning ρ i o.signature operands).symm
  primitive := Node.appliesOnly_application.2 ⟨plain, primitive_forms forms⟩
  anew := loweredAnew_application i (forms.imp fun _ _ h => h.anew) once j
  kept := same

/-- The hooks are asked for an expansion.  Whether there is one is settled by the operator, and
nothing is remembered or visited. -/
theorem expanding_settles {o : Operator} (shapes : operands.map Node.shape = o.signature.operands)
    (forms : List.Forall₂ (Relowered ρ given) operands lowered)
    (stock : Stock IsPlain given others start.1.nextId) :
    Settles (fun n? s => (∃ w, (((Registry.standard : Registry K).checkedExpansion? o.signature
          lowered).run.run w).1 = .ok n?) ∧
        Expanded False ρ o (operands.map (Node.value Standard.meaning ρ)) given others
          s.1.nextId n? ∧ s.2 = start.2 ∧ s.1.visits = start.1.visits)
      never ((Work.within ((Registry.standard : Registry K).checkedExpansion? o.signature lowered) :
        Pass K (Option (Node K))).run.run start) := by
  have denotes := denotes_lowered (forms.imp fun _ _ h => h.form)
  rw [shapes] at denotes
  have belowLowered := FormRelation.forall_below (F := relowered ρ) forms
  refine (Triple.within fun memo w same => ?_ : Triple (· = start) _ _ _) start rfl
  subst same
  have settled := Triple.traced.both
    (checkedExpansion?_triple denotes belowLowered fun _ => False.elim) w ⟨trivial, stock⟩
  have idle := Work.Idle.checkedExpansion? (Registry.standard : Registry K) o.signature lowered w
  rw [Work.runIn] at idle
  revert settled idle
  rcases ((Registry.standard : Registry K).checkedExpansion? o.signature lowered).run.run w with
    ⟨_ | n?, w'⟩
  · exact fun settled _ => settled.2
  · exact fun settled idle => ⟨settled.1, settled.2, rfl, idle⟩

/-- A plain application is kept as it is, or made anew over the forms of its operands. -/
theorem keeping_relowers {o : Operator} (shapes : operands.map Node.shape = o.signature.operands)
    (below : Node.Below (given ++ others) (.application id o.signature operands))
    (forms : List.Forall₂ (Relowered ρ given) operands lowered) (plain : IsPlain o.signature.name)
    (once : ∃ w, (((Registry.standard : Registry K).checkedExpansion? o.signature
      lowered).run.run w).1 = .ok none)
    (recalls : Recalls (relowered ρ) IsPlain given others start) :
    Settles (fun m s => (∃ more, given ⊆ more ∧
        Relowered ρ more (.application id o.signature operands) m ∧
        Recalls (relowered ρ) IsPlain more others s) ∧
        Progress (fun _ => False) (fun _ => False) start s)
      never ((if Node.allSame lowered operands then
          pure (.application id o.signature operands)
        else
          Work.within (Node.newApplication o.signature lowered) : Pass K (Node K)).run.run start) := by
  have keeps : Triple (Recalls (relowered ρ) IsPlain given others)
      (if Node.allSame lowered operands then
          pure (.application id o.signature operands)
        else
          Work.within (Node.newApplication o.signature lowered) : Pass K (Node K))
      (fun m s => ∃ more, given ⊆ more ∧
        Relowered ρ more (.application id o.signature operands) m ∧
        Recalls (relowered ρ) IsPlain more others s) never := by
    refine keeping_triple (F := relowered ρ) forms below plain ?_ ?_
    · rintro rfl more here
      exact .application shapes plain forms once id id (fun _ => rfl) here
    · -- over other forms it is made anew, and it is no node of plain operators then
      intro differs i more here
      refine .application shapes plain forms once id i (fun primitive => ?_) here
      exact absurd (forms_of_primitive forms (Node.appliesOnly_application.1 primitive).2) differs
  have stays : Triple (Progress (fun _ => False) (fun _ => False) start)
      (if Node.allSame lowered operands then
          pure (.application id o.signature operands)
        else
          Work.within (Node.newApplication o.signature lowered) : Pass K (Node K))
      (fun _ => Progress (fun _ => False) (fun _ => False) start) never := by
    split
    · exact .value fun _ h => h
    · exact .within fun _ _ h => h.trans (.of_idle rfl rfl)
  exact ((keeps.both stays) start ⟨recalls, .refl start⟩).imp (fun _ _ h => h) fun _ _ h => h.1

/-- What becomes of an application over forms of its operands is a form of the application.  Where it
is expanded, the expansion is lowered in its turn, to itself. -/
theorem rewrite_relowers {o : Operator} (shapes : operands.map Node.shape = o.signature.operands)
    (below : Node.Below (given ++ others) (.application id o.signature operands))
    (forms : List.Forall₂ (Relowered ρ given) operands lowered)
    (recalls : Recalls (relowered ρ) IsPlain given others start)
    (nested : ¬ IsPlain o.signature.name → ∀ m, Typed m → Primitive m →
      Relowers ρ others again m) :
    Settles (fun m s => ∃ more, given ⊆ more ∧
        Relowered ρ more (.application id o.signature operands) m ∧
        Recalls (relowered ρ) IsPlain more others s ∧
        Progress (fun i => ¬ IsPlain o.signature.name ∧ ∃ x, Node.Below more x ∧ x.id = i)
          (fun _ => False) start s)
      never (((Registry.standard : Registry K).rewrite again id o.signature operands
        lowered).run.run start) := by
  rw [Registry.rewrite]
  refine (expanding_settles shapes forms recalls.stock).bind fun n? s hs => ?_
  rcases s with ⟨w, memo⟩
  rcases hs with ⟨once, expanded, same, visits⟩
  obtain rfl : memo = start.2 := same
  have idle (touched : NodeId → Prop) : Progress touched (fun _ => False) start (w, start.2) :=
    .of_idle rfl visits
  cases n? with
  | none =>
      rcases expanded with ⟨plain, stock⟩
      refine (keeping_relowers shapes below forms plain once ⟨stock, recalls.memo⟩).imp ?_
        fun _ _ h => h
      intro m s hs
      rcases hs with ⟨⟨more, sub, form, recalls⟩, progress⟩
      exact ⟨more, sub, form, recalls,
        (idle _).trans (progress.wider fun _ => False.elim)⟩
  | some e =>
      rcases expanded with ⟨high, he, stock⟩
      have primitive : Primitive e := stock.only e List.mem_cons_self
      have sub : given ⊆ e :: given := List.subset_cons_self e given
      have added : Recalls (relowered ρ) IsPlain (e :: given) others (w, start.2) :=
        Recalls.mono recalls sub stock
      refine (nested high e he.typed primitive (e :: given) (w, start.2) (.of_mem List.mem_cons_self)
        added).imp ?_ fun _ _ h => h
      intro m s hs
      rcases hs with ⟨more, sub', form, recalls, progress, _⟩
      obtain rfl := form.kept primitive
      refine ⟨more, List.Subset.trans sub sub', ⟨⟨form.form.below, ?_⟩, primitive, ?_, ?_⟩, recalls, ?_⟩
      · exact he.of_eq False.elim
      · exact loweredAnew_application id (forms.imp fun _ _ h => h.anew) once
      · exact fun primitive => absurd (Node.appliesOnly_application.1 primitive).1 high
      · refine (idle _).trans (progress.wider fun i near => ⟨high, ?_⟩)
        rcases near with ⟨x, below, same⟩ | ⟨lowers, _⟩
        · exact ⟨x, form.form.below.of_reaches below, same⟩
        · exact absurd primitive lowers

/-- Nodes are lowered one after the other. -/
theorem relowersAll {lower : Node K → Pass K (Node K)} {nodes : List (Node K)}
    (each : ∀ n ∈ nodes, Relowers ρ others lower n)
    (below : ∀ n ∈ nodes, Node.Below (given ++ others) n)
    (recalls : Recalls (relowered ρ) IsPlain given others start) :
    Settles (fun ms s => ∃ more, given ⊆ more ∧ List.Forall₂ (Relowered ρ more) nodes ms ∧
        Recalls (relowered ρ) IsPlain more others s ∧
        Progress (fun i => ∃ n ∈ nodes, Near more n i) (fun _ => False) start s)
      never ((nodes.mapM lower).run.run start) := by
  induction nodes generalizing given start with
  | nil => exact ⟨given, List.Subset.refl given, .nil, recalls, .refl start⟩
  | cons n rest ih =>
      rw [List.mapM_cons]
      refine (each n List.mem_cons_self given start (below n List.mem_cons_self) recalls).bind ?_
      rintro m s ⟨more, sub, form, recalls, progress, _⟩
      refine (ih (fun k hk => each k (List.mem_cons_of_mem n hk)) (fun k hk =>
        (below k (List.mem_cons_of_mem n hk)).mono (subset_append_left others sub)) recalls).bind ?_
      rintro ms s' ⟨all, sub', forms, recalls, progress'⟩
      refine ⟨all, List.Subset.trans sub sub', .cons ((relowered ρ).mono sub' form) forms, recalls, ?_⟩
      -- what has been touched on the way counts in the end
      refine (progress.wider fun i near => ?_).trans (progress'.wider fun i near => ?_)
      · exact ⟨n, List.mem_cons_self, near.mono sub'⟩
      · rcases near with ⟨k, hk, near⟩
        exact ⟨k, List.mem_cons_of_mem n hk, near⟩

/-- The form of a node is remembered for both. -/
theorem remembering_relowers (below : Node.Below (given ++ others) n)
    (form : Relowered ρ given n m) {s : Workspace K × Memo K} {touched : NodeId → Prop}
    (recalls : Recalls (relowered ρ) IsPlain given others s)
    (visited : Progress touched (fun _ => False) start (s.1, s.2.insert n.id m))
    (touches : touched m.id) :
    Settles (fun k s' => ∃ more, given ⊆ more ∧ Relowered ρ more n k ∧
        Recalls (relowered ρ) IsPlain more others s' ∧ Progress touched (fun _ => False) start s' ∧
        (n.isApplication = true → s'.2[n.id]? = some k))
      never ((do
        Pass.remember n.id m
        Pass.remember m.id m
        return m : Pass K (Node K)).run.run s) := by
  have first : Recalls (relowered ρ) IsPlain given others (s.1, s.2.insert n.id m) :=
    Recalls.remember recalls below form
  have belowForm : Node.Below (given ++ others) m :=
    form.form.below.mono (List.subset_append_left given others)
  -- if a form of the form is known, it is the form itself
  have same (k : Node K) (known : (s.2.insert n.id m)[m.id]? = some k) : k = m :=
    Relowered.kept (Recalls.known first belowForm known) form.primitive
  have second := Recalls.remember first belowForm ((relowered ρ).self form)
  refine ⟨given, List.Subset.refl given, form, second, visited.remember same touches, fun _ => ?_⟩
  change ((s.2.insert n.id m).insert m.id m)[n.id]? = some m
  rw [Std.HashMap.getElem?_insert]
  split
  · rfl
  · exact Std.HashMap.getElem?_insert_self

omit [Arithmetic K] [Numeral K] in
/-- While the operands of an application are lowered, and the application is rewritten, it is not
visited itself. -/
theorem not_near_application {operands : List (Node K)} (coherent : Node.Coherent (given ++ others))
    (only : ∀ m ∈ given, Primitive m)
    (below : Node.Below (given ++ others) (.application id s operands)) :
    ¬ ((∃ m ∈ operands, Near given m id) ∨
      ¬ IsPlain s.name ∧ ∃ x, Node.Below given x ∧ x.id = id) := by
  -- a form of that identity would be the application, which would then be made of plain operators
  have primitive (x : Node K) (hx : Node.Below given x) (same : x.id = id) :
      Primitive (.application id s operands : Node K) := by
    have around := hx.mono (List.subset_append_left given others)
    rw [← coherent.eq_of_id_eq around below same]
    rcases hx with ⟨m, hm, hx⟩
    exact (only m hm).of_reaches hx
  rintro (⟨m, hm, ⟨x, hx, same⟩ | ⟨lowers, x, hx, same⟩⟩ | ⟨high, x, hx, same⟩)
  · have operand : (Node.application id s operands).Reaches m := .of_mem_operands hm
    obtain rfl := coherent.eq_of_id_eq (below.of_reaches (operand.trans hx)) below same
    exact Node.not_reaches_of_mem_operands hm hx
  · exact lowers ((primitive x hx same).of_reaches (.of_mem_operands hm))
  · exact high (Node.appliesOnly_application.1 (primitive x hx same)).1

/-- A constant or a leaf is its own form, and nothing is remembered for it. -/
theorem plain_relowers (typed : Typed n) (plain : n.isApplication = false) :
    Relowers ρ others pure n := by
  intro given start below recalls
  have primitive : Primitive n := Node.appliesOnly_of_plain plain
  have sub := List.subset_cons_self n given
  have form : Relowered ρ (n :: given) n n :=
    ⟨⟨.of_mem List.mem_cons_self, .of_typed typed False.elim⟩, primitive,
      loweredAnew_self typed primitive, fun _ => rfl⟩
  refine ⟨n :: given, sub, form, Recalls.mono recalls sub (recalls.stock.cons below primitive),
    .refl start, fun application => ?_⟩
  rw [plain] at application
  exact absurd application nofun

/-- The pass comes to forms and remembers them, by induction on the expression. -/
theorem lowerWith_relowers (typed : Typed n)
    (nested : Primitive n ∨ ∀ m, Typed m → Primitive m → Relowers ρ others again m) :
    Relowers ρ others ((Registry.standard : Registry K).lowerWith again) n := by
  induction n using Node.induct with
  | constant | leaf =>
      intro given start below recalls
      rw [Registry.lowerWith]
      exact plain_relowers typed rfl given start below recalls
  | application id s operands ih =>
      intro given start below recalls
      let root : Node K := .application id s operands
      have operand (m : Node K) (hm : m ∈ operands) : root.Reaches m := .of_mem_operands hm
      rcases Typed.operator typed with ⟨o, rfl, shapes, _⟩
      rw [Registry.lowerWith_application]
      refine Settles.bind (m := fun known? s => s = start ∧ known? = start.2[id]?) ⟨rfl, rfl⟩ ?_
      rintro known? _ ⟨rfl, looked⟩
      cases known? with
      | some m =>
          exact ⟨given, List.Subset.refl given, Recalls.known recalls below looked.symm, recalls,
            .refl _, fun _ => looked.symm⟩
      | none =>
          rename_i start
          refine Settles.bind
            (m := fun _ s => s = (start.1.tell (.lowering id o.signature), start.2)) rfl ?_
          rintro _ _ rfl
          have told : Recalls (relowered ρ) IsPlain given others
              (start.1.tell (.lowering id o.signature), start.2) := ⟨recalls.stock, recalls.memo⟩
          rw [Registry.lowerAllWith_eq_mapM]
          refine (relowersAll (fun m hm => ih m hm (typed.of_mem_operands hm) (nested.imp_left
            fun primitive => primitive.of_reaches (operand m hm)))
            (fun m hm => below.of_reaches (operand m hm)) told).bind ?_
          rintro lowered s ⟨more, sub, forms, recalls, progress⟩
          refine (rewrite_relowers shapes (below.mono (subset_append_left others sub)) forms recalls
            fun high => nested.resolve_left fun primitive =>
              high (Node.appliesOnly_application.1 primitive).1).bind ?_
          rintro m s' ⟨all, sub', form, recalls, progress'⟩
          have here := below.mono (subset_append_left others (List.Subset.trans sub sub'))
          have untouched := not_near_application recalls.stock.coherent recalls.stock.only here
          -- from the visit to the rewrite, operands and forms have been touched
          let touched (i : NodeId) : Prop := (∃ m ∈ operands, Near all m i) ∨
            ¬ IsPlain o.signature.name ∧ ∃ x, Node.Below all x ∧ x.id = i
          have went : Progress touched (fun _ => False)
              (start.1.tell (.lowering id o.signature), start.2) s' := by
            refine (progress.wider fun i touches => ?_).trans (progress'.wider fun _ => .inr)
            rcases touches with ⟨m, hm, near⟩
            exact .inl ⟨m, hm, near.mono sub'⟩
          have near (i : NodeId) (h : touched i ∨ i = id) : Near all root i := by
            rcases h with (⟨m, hm, near⟩ | ⟨high, x, hx, same⟩) | rfl
            · exact near.of_mem_operands hm
            · exact .inr
                ⟨fun primitive => high (Node.appliesOnly_application.1 primitive).1, x, hx, same⟩
            · exact .inl root.covers_self
          have visited := (went.visit rfl looked.symm untouched m).wider near
          have touches : Near all root m.id := by
            by_cases primitive : Primitive root
            · rw [form.kept primitive]
              exact .inl root.covers_self
            · exact .inr ⟨primitive, m, form.form.below, rfl⟩
          refine (remembering_relowers here form recalls visited touches).imp ?_ fun _ _ h => h
          rintro k s'' ⟨last, sub'', form, recalls, progress, known⟩
          exact ⟨last, List.Subset.trans (List.Subset.trans sub sub') sub'', form, recalls,
            progress.wider fun i near => near.mono sub'', known⟩

/-- An expansion consists of plain operators, so expansions are not nested further than is allowed. -/
theorem lowerNext_relowers (typed : Typed n) :
    Relowers ρ others (Registry.standard : Registry K).lowerNext n := by
  refine lowerWith_relowers typed (.inr fun m typed primitive => ?_)
  have again : Relowers ρ others
      ((Registry.standard : Registry K).lowerWithin (nestingLimit - 2 + 1)) m :=
    lowerWith_relowers typed (.inl primitive)
  exact again

end Standard

end SymbolicLinalg
