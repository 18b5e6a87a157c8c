import SymbolicLinalg.Proofs.Meaning

/-!
# Denotation — well-typed expressions and the literals they stand for

An assignment fits an expression if it gives every leaf a literal of its shape.  Then the value of a
well-typed expression over the standard operators has the shape of the expression.

`Denotes Φ ρ n s v` collects what is known of a node `n` while it is worked on: it is well typed and
of shape `s`, and under the assumption `Φ` the assignment `ρ` fits it and its value is `v`.  The
assumption is that `ρ` fits the expressions the work began with; that the work succeeds does not
depend on it.
-/

namespace SymbolicLinalg

variable {K L : Type}

/-- The literals of a list of nodes are those of its nodes, one by one. -/
theorem Node.forall₂_of_literals? {nodes : List (Node K)} {values : List (Literal K)}
    (literals : Node.literals? nodes = some values) :
    List.Forall₂ (fun n v => n.literal? = some v) nodes values := by
  induction nodes generalizing values with
  | nil =>
      obtain rfl : values = [] := by simpa [Node.literals?] using literals.symm
      exact .nil
  | cons n rest ih =>
      simp only [Node.literals?, List.mapM_cons, Option.bind_eq_bind, Option.bind_eq_some_iff,
        Option.pure_def, Option.some.injEq] at literals
      rcases literals with ⟨v, hv, others, hothers, rfl⟩
      exact .cons hv (ih hothers)

/-! ## Assignments -/

namespace Assignment

/-- Every leaf of an expression is assigned a literal of its shape. -/
def Fits (ρ : Assignment L) (n : Node K) : Prop :=
  ∀ id name s, n.Reaches (.leaf id name s) → (ρ id).HasShape s

theorem Fits.of_reaches {ρ : Assignment L} {n m : Node K} (h : ρ.Fits n) (below : n.Reaches m) :
    ρ.Fits m :=
  fun id name s leaf => h id name s (below.trans leaf)

theorem fits_constant (ρ : Assignment L) (id : NodeId) (v : Literal K) :
    ρ.Fits (.constant id v) := by
  intro i name s below
  have := below.eq_of_operands_eq_nil rfl
  simp at this

theorem fits_leaf {ρ : Assignment L} {id : NodeId} {name : String} {s : Shape} :
    ρ.Fits (.leaf id name s : Node K) ↔ (ρ id).HasShape s := by
  refine ⟨fun h => h id name s (.refl _), fun fits i called t below => ?_⟩
  obtain ⟨rfl, _, rfl⟩ := Node.leaf.inj (below.eq_of_operands_eq_nil rfl)
  exact fits

theorem fits_application {ρ : Assignment L} {id : NodeId} {s : Signature}
    {operands : List (Node K)} :
    ρ.Fits (.application id s operands) ↔ ∀ m ∈ operands, ρ.Fits m := by
  constructor
  · intro h m hm
    exact h.of_reaches (.of_mem_operands hm)
  · intro h i name t below
    rcases Node.reaches_iff.1 below with same | ⟨m, hm, below⟩
    · simp at same
    · exact h m hm i name t below

end Assignment

namespace Standard

variable [Arithmetic K] [Numeral K] [Arithmetic L] [Numeral L]

/-- A well-typed expression over the standard operators. -/
abbrev Typed (n : Node K) : Prop :=
  n.WellTyped (Registry.standard : Registry K).Knows

/-- An application in a well-typed expression is one of a standard operator. -/
theorem Typed.operator {id : NodeId} {s : Signature} {operands : List (Node K)}
    (h : Typed (.application id s operands)) :
    ∃ o : Operator, o.signature = s ∧ operands.map Node.shape = o.signature.operands ∧
      ∀ m ∈ operands, Typed m := by
  cases h with
  | application _ known shapes typed =>
      rcases knows_iff.1 known with ⟨o, rfl⟩
      exact ⟨o, rfl, shapes, typed⟩

theorem typed_application (o : Operator) (id : NodeId) {operands : List (Node K)}
    (shapes : operands.map Node.shape = o.signature.operands) (typed : ∀ m ∈ operands, Typed m) :
    Typed (.application id o.signature operands) :=
  .application id (knows_iff.2 ⟨o, rfl⟩) shapes typed

/-- A well-typed node of a shape. -/
structure OfShape (s : Shape) (n : Node K) : Prop where
  typed : Typed n
  shape : n.shape = s

section

variable {operands : List (Node K)} {shapes : List Shape}

theorem forall₂_ofShape (typed : ∀ n ∈ operands, Typed n) :
    List.Forall₂ OfShape (operands.map Node.shape) operands := by
  rw [List.forall₂_map_left_iff, List.forall₂_same]
  exact fun n hn => ⟨typed n hn, rfl⟩

theorem shapes_ofShape (made : List.Forall₂ OfShape shapes operands) :
    operands.map Node.shape = shapes := by
  induction made with
  | nil => rfl
  | cons first _ ih => rw [List.map_cons, first.shape, ih]

theorem typed_ofShape (made : List.Forall₂ OfShape shapes operands) :
    ∀ n ∈ operands, Typed n := by
  induction made with
  | nil => exact nofun
  | cons first _ ih => exact List.forall_mem_cons.2 ⟨first.typed, ih⟩

theorem ofShape_application (o : Operator) (id : NodeId)
    (made : List.Forall₂ OfShape o.signature.operands operands) :
    OfShape o.signature.result (.application id o.signature operands) :=
  ⟨typed_application o id (shapes_ofShape made) (typed_ofShape made), rfl⟩

end

/-- The value of a well-typed expression has its shape. -/
theorem hasShape_valueIn {read : Literal K → Literal L} {ρ : Assignment L}
    (reads : ∀ v : Literal K, v.Complete → (read v).HasShape v.shape) {n : Node K}
    (typed : Typed n) (fits : ρ.Fits n) :
    (n.valueIn read Standard.meaning ρ).HasShape n.shape := by
  induction n using Node.induct with
  | constant id v =>
      cases typed with
      | constant _ complete => exact reads v complete
  | leaf id name s => exact fits id name s (.refl _)
  | application id s operands ih =>
      rcases typed.operator with ⟨o, rfl, shapes, typed⟩
      rw [Assignment.fits_application] at fits
      have values : List.Forall₂ Literal.HasShape
          (operands.map (Node.valueIn read Standard.meaning ρ)) o.signature.operands := by
        rw [← shapes, List.forall₂_map_left_iff, List.forall₂_map_right_iff, List.forall₂_same]
        exact fun m hm => ih m hm (typed m hm) (fits m hm)
      have result := o.hasShape_value values
      rw [Node.valueIn, Node.valuesIn_eq_map]
      exact result

theorem hasShape_value {ρ : Assignment K} {n : Node K} (typed : Typed n) (fits : ρ.Fits n) :
    (n.value Standard.meaning ρ).HasShape n.shape :=
  hasShape_valueIn (fun _ complete => ⟨rfl, complete⟩) typed fits

/-! ## Denotation -/

/-- A well-typed node of a shape, which stands for a literal under an assumption. -/
structure Denotes (Φ : Prop) (ρ : Assignment K) (n : Node K) (s : Shape) (v : Literal K) :
    Prop where
  typed : Typed n
  shape : n.shape = s
  fits : Φ → ρ.Fits n
  value : Φ → n.value Standard.meaning ρ = v

/-- Nodes, their shapes and the literals they stand for, place by place. -/
inductive DenoteAll (Φ : Prop) (ρ : Assignment K) :
    List (Node K) → List Shape → List (Literal K) → Prop where
  | nil : DenoteAll Φ ρ [] [] []
  | cons {n : Node K} {s : Shape} {v : Literal K} {ns : List (Node K)} {ss : List Shape}
      {vs : List (Literal K)} :
      Denotes Φ ρ n s v → DenoteAll Φ ρ ns ss vs → DenoteAll Φ ρ (n :: ns) (s :: ss) (v :: vs)

variable {Φ : Prop} {ρ : Assignment K}

namespace Denotes

variable {n : Node K} {s : Shape} {v : Literal K}

theorem hasShape (h : Denotes Φ ρ n s v) (hΦ : Φ) : v.HasShape s := by
  rw [← h.value hΦ, ← h.shape]
  exact hasShape_value h.typed (h.fits hΦ)

/-- A node stands for its value. -/
theorem of_typed (typed : Typed n) (fits : Φ → ρ.Fits n) :
    Denotes Φ ρ n n.shape (n.value Standard.meaning ρ) :=
  ⟨typed, rfl, fits, fun _ => rfl⟩

theorem constant (id : NodeId) (h : v.HasShape s) : Denotes Φ ρ (.constant id v) s v where
  typed := .constant id h.complete
  shape := h.shape
  fits _ := ρ.fits_constant id v
  value _ := rfl

theorem of_eq {w : Literal K} (h : Denotes Φ ρ n s v) (same : Φ → v = w) : Denotes Φ ρ n s w :=
  ⟨h.typed, h.shape, h.fits, fun hΦ => (h.value hΦ).trans (same hΦ)⟩

end Denotes

namespace DenoteAll

variable {ns : List (Node K)} {ss : List Shape} {vs : List (Literal K)}

theorem one {n : Node K} {s : Shape} {v : Literal K} (h : Denotes Φ ρ n s v) :
    DenoteAll Φ ρ [n] [s] [v] :=
  .cons h .nil

theorem two {n m : Node K} {s t : Shape} {v w : Literal K} (hn : Denotes Φ ρ n s v)
    (hm : Denotes Φ ρ m t w) : DenoteAll Φ ρ [n, m] [s, t] [v, w] :=
  .cons hn (.one hm)

theorem typed (h : DenoteAll Φ ρ ns ss vs) : ∀ n ∈ ns, Typed n := by
  induction h with
  | nil => exact fun n hn => absurd hn List.not_mem_nil
  | cons head _ ih => exact List.forall_mem_cons.2 ⟨head.typed, ih⟩

theorem shapes (h : DenoteAll Φ ρ ns ss vs) : ns.map Node.shape = ss := by
  induction h with
  | nil => rfl
  | cons head _ ih => rw [List.map_cons, head.shape, ih]

theorem fits (h : DenoteAll Φ ρ ns ss vs) (hΦ : Φ) : ∀ n ∈ ns, ρ.Fits n := by
  induction h with
  | nil => exact fun n hn => absurd hn List.not_mem_nil
  | cons head _ ih => exact List.forall_mem_cons.2 ⟨head.fits hΦ, ih⟩

theorem values (h : DenoteAll Φ ρ ns ss vs) (hΦ : Φ) :
    ns.map (Node.value Standard.meaning ρ) = vs := by
  induction h with
  | nil => rfl
  | cons head _ ih => rw [List.map_cons, head.value hΦ, ih]

theorem of_typed (typed : ∀ n ∈ ns, Typed n) (fits : Φ → ∀ n ∈ ns, ρ.Fits n) :
    DenoteAll Φ ρ ns (ns.map Node.shape) (ns.map (Node.value Standard.meaning ρ)) := by
  induction ns with
  | nil => exact .nil
  | cons n rest ih =>
      refine .cons (.of_typed (typed n List.mem_cons_self) fun hΦ => fits hΦ n List.mem_cons_self) ?_
      exact ih (fun m hm => typed m (List.mem_cons_of_mem n hm))
        fun hΦ m hm => fits hΦ m (List.mem_cons_of_mem n hm)

end DenoteAll

/-- A new application stands for the value of its operator. -/
theorem Denotes.application (o : Operator) (id : NodeId) {operands : List (Node K)}
    {values : List (Literal K)} (h : DenoteAll Φ ρ operands o.signature.operands values) :
    Denotes Φ ρ (.application id o.signature operands) o.signature.result (o.value values) where
  typed := typed_application o id h.shapes h.typed
  shape := rfl
  fits hΦ := Assignment.fits_application.2 (h.fits hΦ)
  value hΦ := by
    rw [Node.value_application, h.values hΦ]
    rfl

end Standard

end SymbolicLinalg
