import SymbolicLinalg.Proofs.Hooks
import SymbolicLinalg.Proofs.PostOrder
import SymbolicLinalg.Proofs.Soundness
import SymbolicLinalg.Proofs.Traversal

/-!
# Replacement — substitution and the update of assignments

Substitution puts other nodes in the place of leaves; updating an assignment gives these leaves the
values of the nodes.  One memo holds both the bindings and what has become of the applications that
have been visited, so the invariant `Replacing` says two things of it: whatever is remembered of a
node has become of that node, and no binding has been lost.

* `Registry.substituteNode_replaces`: what becomes of nodes, by induction on the expression;
* `Standard.substitute_updates`: the value of the result is that of the expression under the updated
  assignment, and without a bound leaf the expression stays what it is.
-/

namespace SymbolicLinalg

variable {K L : Type}

/-! ## Bindings -/

namespace Binding

/-- The leaves and the replacements of bindings. -/
def nodes (bindings : List (Binding K)) : List (Node K) :=
  bindings.flatMap fun b => [b.leaf, b.replacement]

theorem leaf_mem_nodes {bindings : List (Binding K)} {b : Binding K} (hb : b ∈ bindings) :
    b.leaf ∈ nodes bindings :=
  List.mem_flatMap.2 ⟨b, hb, List.mem_cons_self⟩

theorem replacement_mem_nodes {bindings : List (Binding K)} {b : Binding K} (hb : b ∈ bindings) :
    b.replacement ∈ nodes bindings :=
  List.mem_flatMap.2 ⟨b, hb, List.mem_cons_of_mem b.leaf List.mem_cons_self⟩

end Binding

/-- Bindings that may be put into an expression: leaves are bound to nodes of their shapes, and all
these nodes have been made in the same workspace. -/
structure Substitutable (e : Node K) (bindings : List (Binding K)) (next : NodeId) : Prop where
  leaves : ∀ b ∈ bindings, ∃ id name, b.leaf = .leaf id name b.replacement.shape
  coherent : Node.Coherent (e :: Binding.nodes bindings)
  older : ∀ n ∈ e :: Binding.nodes bindings, n.Older next

/-- All bound leaves are given the values of their replacements at once; the last binding of a leaf
counts. -/
def Assignment.update (meaning : Meaning K) (ρ : Assignment K) (bindings : List (Binding K)) :
    Assignment K :=
  bindings.foldl
    (fun updated b => Function.update updated b.leaf.id (b.replacement.value meaning ρ)) ρ

/-- The update gives a leaf the value of the node that the pass knows for it. -/
theorem Assignment.update_apply (meaning : Meaning K) (ρ : Assignment K)
    (bindings : List (Binding K)) (id : NodeId) :
    ρ.update meaning bindings id =
      ((Registry.bindingMemo bindings)[id]?.map (Node.value meaning ρ)).getD (ρ id) := by
  -- the assignment and the memo are updated by the same bindings in the same order
  have general (bindings : List (Binding K)) (updated : Assignment K) (memo : Memo K)
      (agree : updated id = (memo[id]?.map (Node.value meaning ρ)).getD (ρ id)) :
      bindings.foldl (fun updated b =>
          Function.update updated b.leaf.id (b.replacement.value meaning ρ)) updated id =
        ((bindings.foldl (fun memo b => memo.insert b.leaf.id b.replacement) memo)[id]?.map
          (Node.value meaning ρ)).getD (ρ id) := by
    induction bindings generalizing updated memo with
    | nil => exact agree
    | cons b rest ih =>
        refine ih _ _ ?_
        simp only [Function.update_apply, Std.HashMap.getElem?_insert, beq_iff_eq, eq_comm (a := id)]
        split
        · rfl
        · exact agree
  refine general bindings ρ ∅ ?_
  simp

namespace Registry

theorem checkBindings_eq_ok [Arithmetic K] [Numeral K] {bindings : List (Binding K)}
    (leaves : ∀ b ∈ bindings, ∃ id name, b.leaf = .leaf id name b.replacement.shape) :
    bindings.forM checkBinding = .ok () := by
  induction bindings with
  | nil => rfl
  | cons b rest ih =>
      rw [List.forall_mem_cons] at leaves
      rcases leaves with ⟨⟨id, name, same⟩, others⟩
      have first : checkBinding b = .ok () := by
        rw [checkBinding, same]
        exact if_neg (not_not_intro rfl)
      rw [List.forM, first]
      exact ih others

/-! ## What becomes of nodes -/

/-- What the pass knows while it is under way, if the nodes in the relation are what becomes of
nodes below the sources. -/
structure Replacing (R : Node K → Node K → Prop) (bound : Memo K) (sources given : List (Node K))
    (s : Workspace K × Memo K) : Prop where
  held : sources ⊆ given
  stock : Stock anyName given [] s.1.nextId
  unbound : ∀ id : NodeId, s.2[id]? = none → bound[id]? = none
  memo : ∀ n, Node.Below sources n → ∀ m, s.2[n.id]? = some m → R n m ∧ Node.Below given m

/-- What has become of a node is around, besides what has been before. -/
def Replaced (R : Node K → Node K → Prop) (bound : Memo K) (sources given : List (Node K))
    (n m : Node K) (s : Workspace K × Memo K) : Prop :=
  ∃ more, given ⊆ more ∧ R n m ∧ Node.Below more m ∧ Replacing R bound sources more s

variable {R : Node K → Node K → Prop} {bound memo : Memo K} {sources given more : List (Node K)}
  {n m : Node K} {w w' : Workspace K} {fault : Fault → Workspace K × Memo K → Prop}

namespace Replacing

/-- What has become of a node is remembered for it. -/
theorem remember (h : Replacing R bound sources given (w, memo)) (below : Node.Below sources n)
    (replaced : R n m) (around : Node.Below given m) :
    Replacing R bound sources given (w, memo.insert n.id m) := by
  refine ⟨h.held, h.stock, fun id missing => ?_, fun k hk l found => ?_⟩
  · dsimp only at missing
    rw [Std.HashMap.getElem?_insert] at missing
    split at missing
    · exact absurd missing nofun
    · exact h.unbound id missing
  · dsimp only at found
    rw [Std.HashMap.getElem?_insert] at found
    split at found
    · rename_i same
      obtain rfl : n = k := h.stock.coherent_given.eq_of_id_eq (below.mono h.held)
        (hk.mono h.held) (beq_iff_eq.1 same)
      obtain rfl := Option.some.inj found
      exact ⟨replaced, around⟩
    · exact h.memo k hk l found

/-- Nothing is forgotten when nodes are added. -/
theorem mono (h : Replacing R bound sources given (w, memo)) (sub : given ⊆ more)
    (stock : Stock anyName more [] w'.nextId) : Replacing R bound sources more (w', memo) where
  held := List.Subset.trans h.held sub
  stock := stock
  unbound := h.unbound
  memo k hk l found := (h.memo k hk l found).imp_right fun around => around.mono sub

end Replacing

variable {r : Registry K}

/-- A node is replaced, whatever else is around. -/
def Replaces (r : Registry K) (R : Node K → Node K → Prop) (bound : Memo K)
    (sources : List (Node K)) (fault : Fault → Workspace K × Memo K → Prop) (n : Node K) : Prop :=
  ∀ given, Triple (Replacing R bound sources given) (r.substituteNode n)
    (Replaced R bound sources given n) fault

/-- Nodes are replaced one after the other. -/
theorem replacesAll {nodes : List (Node K)} (each : ∀ n ∈ nodes, r.Replaces R bound sources fault n)
    (given : List (Node K)) :
    Triple (Replacing R bound sources given) (nodes.mapM r.substituteNode)
      (fun ms s => ∃ more, given ⊆ more ∧ List.Forall₂ R nodes ms ∧
        (∀ m ∈ ms, Node.Below more m) ∧ Replacing R bound sources more s) fault := by
  induction nodes generalizing given with
  | nil =>
      exact .value fun s h => ⟨given, List.Subset.refl given, .nil, nofun, h⟩
  | cons n rest ih =>
      rw [List.forall_mem_cons] at each
      rw [List.mapM_cons]
      refine (each.1 given).bind fun m => ?_
      refine Triple.of_exists fun more => .assuming fun sub => .assuming fun first =>
        .assuming fun around => ?_
      refine (ih each.2 more).bind fun ms s hs => ?_
      rcases hs with ⟨all, sub', others, below, h⟩
      -- what has become of the first node is still around after the others
      exact ⟨all, List.Subset.trans sub sub', .cons first others,
        List.forall_mem_cons.2 ⟨around.mono sub', below⟩, h⟩

/-- An application stays as it is over the same operands, and is rebuilt over others. -/
theorem refit_replaces {id : NodeId} {s : Signature} {operands replaced : List (Node K)}
    (below : Node.Below sources (.application id s operands))
    (related : List.Forall₂ R operands replaced) (around : ∀ m ∈ replaced, Node.Below given m)
    (kept : replaced = operands → R (.application id s operands) (.application id s operands))
    (rebuilt : replaced ≠ operands →
      Triple (fun w => Stock anyName given [] w.nextId) (r.rebuild s replaced)
        (fun m w => R (.application id s operands) m ∧ Stock anyName (m :: given) [] w.nextId)
        fun f w => ∀ memo, fault f (w, memo)) :
    Triple (Replacing R bound sources given) (r.refit id s operands replaced)
      (Replaced R bound sources given (.application id s operands)) fault := by
  rw [refit]
  split
  · rename_i same
    intro state h
    have here := below.mono h.held
    have equal : replaced = operands :=
      Node.eq_of_allSame h.stock.coherent_given around
        (fun m hm => here.of_reaches (.of_mem_operands hm)) related.length_eq.symm same
    exact ⟨given, List.Subset.refl given, kept equal, here, h⟩
  · rename_i differs
    have changed : replaced ≠ operands := by
      rintro rfl
      exact differs (Node.allSame_self replaced)
    refine .within fun memo w h => ?_
    refine (rebuilt changed w h.stock).imp ?_ fun f w' given => given memo
    rintro m w' ⟨result, stock⟩
    have sub : given ⊆ m :: given := List.subset_cons_self m given
    exact ⟨m :: given, sub, result, .of_mem List.mem_cons_self, h.mono sub stock⟩

/-- A node that is known has been replaced already. -/
theorem looking {otherwise : Pass K (Node K)} (below : Node.Below sources n)
    (h : Triple (fun s => Replacing R bound sources given s ∧ s.2[n.id]? = none) otherwise
      (Replaced R bound sources given n) fault) :
    Triple (Replacing R bound sources given)
      (do
        match ← Pass.known? n.id with
        | some known => return known
        | none => otherwise)
      (Replaced R bound sources given n) fault := by
  refine (Pass.known?_triple n.id).bind fun known? => ?_
  cases known? with
  | none => exact h.strengthen fun s hs => ⟨hs.1, hs.2.symm⟩
  | some m =>
      rintro s ⟨hs, found⟩
      rcases hs.memo n below m found.symm with ⟨related, around⟩
      exact ⟨given, List.Subset.refl given, related, around, hs⟩

/-- What becomes of nodes, by induction on the expression: a bound leaf is known from the beginning,
and any other node is related to what becomes of it if that is so for its operands. -/
theorem substituteNode_replaces
    (plain : ∀ n, Node.Below sources n → n.isApplication = false → bound[n.id]? = none → R n n)
    (kept : ∀ id s operands, Node.Below sources (.application id s operands) →
      List.Forall₂ R operands operands →
      R (.application id s operands) (.application id s operands))
    (rebuilt : ∀ id s operands replaced given, Node.Below sources (.application id s operands) →
      List.Forall₂ R operands replaced → replaced ≠ operands →
      (∀ m ∈ replaced, Node.Below given m) →
      Triple (fun w => Stock anyName given [] w.nextId) (r.rebuild s replaced)
        (fun m w => R (.application id s operands) m ∧ Stock anyName (m :: given) [] w.nextId)
        fun f w => ∀ memo, fault f (w, memo))
    (below : Node.Below sources n) : r.Replaces R bound sources fault n := by
  -- a node that is no application and has no binding stays what it is
  have stays (n : Node K) (below : Node.Below sources n) (h : n.isApplication = false)
      (given : List (Node K)) :
      Triple (fun s => Replacing R bound sources given s ∧ s.2[n.id]? = none) (pure n)
        (Replaced R bound sources given n) fault := by
    rintro s ⟨hs, missing⟩
    exact ⟨given, List.Subset.refl given, plain n below h (hs.unbound n.id missing),
      below.mono hs.held, hs⟩
  intro given
  induction n using Node.induct generalizing given with
  | constant id v =>
      rw [substituteNode]
      exact looking below (stays _ below rfl given)
  | leaf id name shape =>
      rw [substituteNode]
      exact looking below (stays _ below rfl given)
  | application id s operands ih =>
      rw [substituteNode_application]
      refine looking below (Triple.strengthen ?_ fun s hs => hs.1)
      have each (m : Node K) (hm : m ∈ operands) : r.Replaces R bound sources fault m :=
        fun given => ih m hm (below.of_reaches (.of_mem_operands hm)) given
      refine (replacesAll each given).bind fun replaced => ?_
      refine Triple.of_exists fun more => .assuming fun sub => .assuming fun related =>
        .assuming fun around => ?_
      have same (h : replaced = operands) :
          R (.application id s operands) (.application id s operands) :=
        kept id s operands below (h ▸ related)
      refine (refit_replaces below related around same fun changed =>
        rebuilt id s operands replaced more below related changed around).bind fun m => ?_
      -- what has become of the application is remembered
      rintro ⟨w, memo⟩ ⟨all, sub', result, here, h⟩
      exact ⟨all, List.Subset.trans sub sub', result, here, h.remember below result here⟩

variable [Arithmetic K] [Numeral K] {e : Node K} {bindings : List (Binding K)}

/-- Substitution begins with the bindings as its memo. -/
theorem substitute_triple {ended : Fault → Workspace K → Prop}
    (bindable : Substitutable e bindings w.nextId)
    (replaces : r.Replaces R (bindingMemo bindings) [e] (fun f s => ended f s.1) e)
    (known : ∀ b ∈ bindings, e.Reaches b.leaf →
      (bindingMemo bindings)[b.leaf.id]? = some b.replacement → R b.leaf b.replacement) :
    Triple (fun v => v = w) (r.substitute e bindings) (fun m _ => R e m) ended := by
  have initial : Replacing R (bindingMemo bindings) [e] (e :: Binding.nodes bindings)
      (w, bindingMemo bindings) := by
    refine ⟨List.cons_subset_cons e (List.nil_subset _), ⟨?_, ?_, fun n _ => ?_⟩, fun _ => id, ?_⟩
    · rw [List.append_nil]
      exact bindable.coherent
    · rw [List.append_nil]
      exact bindable.older
    · exact fun _ _ _ _ => trivial
    · intro n below m found
      rcases exists_binding found with ⟨b, hb, same, rfl⟩
      have sub : [e] ⊆ e :: Binding.nodes bindings := List.cons_subset_cons e (List.nil_subset _)
      have leaf : Node.Below (e :: Binding.nodes bindings) b.leaf :=
        .of_mem (List.mem_cons_of_mem e (Binding.leaf_mem_nodes hb))
      -- the node that has the identity of the leaf is the leaf
      obtain rfl := bindable.coherent.eq_of_id_eq (below.mono sub) leaf same.symm
      rcases below with ⟨k, hk, below⟩
      obtain rfl := List.mem_singleton.1 hk
      exact ⟨known b hb below found,
        .of_mem (List.mem_cons_of_mem _ (Binding.replacement_mem_nodes hb))⟩
  rw [substitute, checkBindings_eq_ok bindable.leaves]
  refine Triple.bind (m := fun _ v => v = w) (.value fun _ => id) fun _ => ?_
  refine Triple.starting ((replaces (e :: Binding.nodes bindings)).weaken ?_ ?_ fun _ _ => id)
  · rintro ⟨v, memo⟩ ⟨rfl, rfl⟩
    exact initial
  · rintro m s ⟨_, _, related, _⟩
    exact related

/-- Where no bound leaf is reached, nothing becomes another node. -/
theorem substitute_unbound (bindable : Substitutable e bindings w.nextId)
    (unreached : ∀ b ∈ bindings, ¬ e.Reaches b.leaf) :
    Triple (fun v => v = w) (r.substitute e bindings) (fun m _ => e = m) never := by
  refine substitute_triple bindable ?_ fun b hb reached => absurd reached (unreached b hb)
  refine substituteNode_replaces (R := Eq) (fun _ _ _ _ => rfl) (fun _ _ _ _ _ => rfl) ?_
    (.of_mem List.mem_cons_self)
  intro id s operands replaced given _ related changed _
  rw [List.forall₂_eq_eq_eq] at related
  exact absurd related.symm changed

end Registry

/-! ## Values -/

namespace Standard

section

variable [Arithmetic K] [Numeral K] [Field K] [FieldArithmetic K] [AngleArithmetic K] {Φ : Prop}
  {ρ : Assignment K} {e : Node K} {bindings : List (Binding K)}

/-- The node stands for the value of another under the updated assignment. -/
abbrev StandsUpdated (Φ : Prop) (ρ : Assignment K) (bindings : List (Binding K))
    (n m : Node K) : Prop :=
  Denotes Φ ρ m n.shape (n.value Standard.meaning (ρ.update Standard.meaning bindings))

omit [Field K] [FieldArithmetic K] [AngleArithmetic K] in
theorem denotes_updated {operands replaced : List (Node K)}
    (h : List.Forall₂ (StandsUpdated Φ ρ bindings) operands replaced) :
    DenoteAll Φ ρ replaced (operands.map Node.shape)
      (operands.map (Node.value Standard.meaning (ρ.update Standard.meaning bindings))) := by
  induction h with
  | nil => exact .nil
  | cons first _ ih => exact .cons first ih

/-- Building an operator over operands that stand for values adds to what is around. -/
theorem rebuild_stands {o : Operator} {operands given others : List (Node K)}
    {values : List (Literal K)} (denotes : DenoteAll Φ ρ operands o.signature.operands values)
    (below : ∀ m ∈ operands, Node.Below given m) :
    Triple (fun w => Stock Registry.anyName given others w.nextId)
      ((Registry.standard : Registry K).rebuild o.signature operands)
      (fun n w => Denotes Φ ρ n o.signature.result (o.value values) ∧
        Stock Registry.anyName (n :: given) others w.nextId) never := by
  rw [o.rebuild_eq]
  have draws : (Registry.standard : Registry K).Draws Registry.anyName [] := standard_draws trivial
  have grows : Triple (fun w => Stock Registry.anyName given others w.nextId)
      ((Registry.standard : Registry K).build o.definition operands)
      (fun n w => Stock Registry.anyName (n :: given) others w.nextId)
      fun _ w => Stock Registry.anyName given others w.nextId :=
    Registry.buildWith_grows draws (Registry.make_grows draws) (definition_mem_operators o) trivial
      (List.nil_subset given) below
  exact ((build_triple denotes).both grows).weaken (fun _ stock => ⟨trivial, stock⟩)
    (fun _ _ h => ⟨h.1.denotes, h.2⟩) fun _ _ h => h.1

theorem substituteNode_stands (typed : Typed e) (fits : Φ → ρ.Fits e) :
    (Registry.standard : Registry K).Replaces (StandsUpdated Φ ρ bindings)
      (Registry.bindingMemo bindings) [e] (fun _ _ => False) e := by
  have part {n : Node K} (below : Node.Below [e] n) : e.Reaches n := by
    rcases below with ⟨k, hk, below⟩
    rwa [List.mem_singleton.1 hk] at below
  -- over operands that stand for their values an application stands for its own
  have anew {s : Signature} {operands replaced : List (Node K)} {id : NodeId}
      (below : Node.Below [e] (.application id s operands))
      (related : List.Forall₂ (StandsUpdated Φ ρ bindings) operands replaced) :
      ∃ o : Operator, o.signature = s ∧ DenoteAll Φ ρ replaced o.signature.operands
        (operands.map (Node.value Standard.meaning (ρ.update Standard.meaning bindings))) := by
    rcases Typed.operator (typed.of_reaches (part below)) with ⟨o, rfl, shapes, _⟩
    exact ⟨o, rfl, shapes ▸ denotes_updated related⟩
  have meant (o : Operator) (id : NodeId) (operands : List (Node K)) :
      o.value (operands.map (Node.value Standard.meaning (ρ.update Standard.meaning bindings))) =
        (Node.application id o.signature operands).value Standard.meaning
          (ρ.update Standard.meaning bindings) :=
    (Node.value_application Standard.meaning _ id o.signature operands).symm
  refine Registry.substituteNode_replaces ?_ ?_ ?_ (.of_mem List.mem_cons_self)
  · intro n below plain free
    refine (Denotes.of_typed (typed.of_reaches (part below))
      fun hΦ => (fits hΦ).of_reaches (part below)).of_eq fun _ => ?_
    cases n with
    | constant id v => rfl
    | leaf id name s =>
        change ρ id = ρ.update Standard.meaning bindings id
        rw [Assignment.update_apply, show (Registry.bindingMemo bindings)[id]? = none from free]
        rfl
    | application => exact absurd plain nofun
  · intro id s operands below related
    rcases anew below related with ⟨o, rfl, denotes⟩
    exact (Denotes.application o id denotes).of_eq fun _ => meant o id operands
  · intro id s operands replaced given below related _ around
    rcases anew below related with ⟨o, rfl, denotes⟩
    refine (rebuild_stands denotes around).weaken (fun _ stock => stock) ?_ fun _ _ => False.elim
    exact fun m w h => ⟨h.1.of_eq fun _ => meant o id operands, h.2⟩

/-- The result of substituting in a well-typed expression stands for the value of the expression under
the updated assignment. -/
theorem substitute_stands (typed : Typed e) {w : Workspace K}
    (bindable : Substitutable e bindings w.nextId)
    (standard : ∀ b ∈ bindings, Typed b.replacement) (ρ : Assignment K) :
    Triple (fun v => v = w) ((Registry.standard : Registry K).substitute e bindings)
      (fun m _ => StandsUpdated (ρ.Fits e ∧ ∀ b ∈ bindings, ρ.Fits b.replacement) ρ bindings e m)
      never := by
  refine Registry.substitute_triple bindable (substituteNode_stands typed And.left) ?_
  intro b hb _ found
  rcases bindable.leaves b hb with ⟨id, name, same⟩
  rw [same] at found ⊢
  refine (Denotes.of_typed (standard b hb) fun hΦ => hΦ.2 b hb).of_eq fun _ => ?_
  change _ = ρ.update Standard.meaning bindings id
  rw [Assignment.update_apply, show (Registry.bindingMemo bindings)[id]? = _ from found]
  rfl

end

/-- Substitution gives an expression the value that it has under the assignment updated with the
values of all replacements at once.  Where no bound leaf is reached, in an expression over whatever
registry, the result is the very same node. -/
theorem substitute_updates :
    (∀ {K : Type} [Arithmetic K] [Numeral K] [Field K] [FieldArithmetic K] [AngleArithmetic K]
        (e : Node K) (bindings : List (Binding K)) (w : Workspace K),
      Typed e → (∀ b ∈ bindings, Typed b.replacement) → Substitutable e bindings w.nextId →
      ∃ m w', ((Registry.standard : Registry K).substitute e bindings).runIn w = (.ok m, w') ∧
        m.shape = e.shape ∧ Typed m ∧
        ∀ ρ : Assignment K, ρ.Fits e → (∀ b ∈ bindings, ρ.Fits b.replacement) →
          ρ.Fits m ∧ m.value Standard.meaning ρ =
            e.value Standard.meaning (ρ.update Standard.meaning bindings)) ∧
    ∀ {L : Type} [Arithmetic L] [Numeral L] (r : Registry L) (e : Node L)
        (bindings : List (Binding L)) (w : Workspace L),
      Substitutable e bindings w.nextId → (∀ b ∈ bindings, ¬ e.Reaches b.leaf) →
      ∃ w', (r.substitute e bindings).runIn w = (.ok e, w') := by
  refine ⟨fun {K} _ _ _ _ _ e bindings w typed standard bindable => ?_,
    fun {L} _ _ r e bindings w bindable unreached => ?_⟩
  · have some_assignment : Assignment K := fun _ => .zero .scalar
    rcases Triple.runIn_eq_ok_forall some_assignment (substitute_stands typed bindable standard)
      rfl with ⟨m, w', run, stands⟩
    have result := stands some_assignment
    refine ⟨m, w', run, result.shape, result.typed, fun ρ fits others => ?_⟩
    exact ⟨(stands ρ).fits ⟨fits, others⟩, (stands ρ).value ⟨fits, others⟩⟩
  · rcases Triple.runIn_eq_ok (Registry.substitute_unbound bindable unreached) rfl with
      ⟨m, w', run, rfl⟩
    exact ⟨w', run⟩

/-- Two leaves that are bound to one another change places, whatever an earlier binding says; a leaf
that is not bound stays. -/
theorem substitute_updates_exchanged :
    let x : Node ℚ := .leaf 4 "x" .vec3
    let y : Node ℚ := .leaf 5 "y" .vec3
    let difference : Node ℚ := .application 6 ⟨.vec3, "-", [.vec3, .vec3]⟩ [x, y]
    (∃ m w', ((Registry.standard : Registry ℚ).substitute difference
        [⟨x, x⟩, ⟨x, y⟩, ⟨y, x⟩]).runIn ⟨7, #[]⟩ = (.ok m, w') ∧
      ∀ ρ : Assignment ℚ, ρ.Fits x → ρ.Fits y →
        m.value Standard.meaning ρ = .zipWith Arithmetic.sub (ρ 5) (ρ 4)) ∧
    ∃ w', ((Registry.standard : Registry ℚ).substitute x [⟨y, difference⟩]).runIn ⟨7, #[]⟩ =
      (.ok x, w') := by
  intro x y difference
  have closed : ∀ n ∈ [difference, x, y], ∀ m ∈ n.operands, m ∈ [difference, x, y] := by
    simp [difference, x, y]
  have coherent : Node.Coherent [difference, x, y] :=
    .of_closed closed (by simp [difference, x, y])
  have older (n : Node ℚ) (hn : n ∈ [difference, x, y]) : n.Older 7 := by
    intro k below
    have known := below.mem_of_closed closed hn
    simp only [List.mem_cons, List.not_mem_nil, or_false] at known
    rcases known with rfl | rfl | rfl
    · decide
    · decide
    · decide
  have substitutable (e : Node ℚ) (bindings : List (Binding ℚ))
      (leaves : ∀ b ∈ bindings, ∃ id name, b.leaf = .leaf id name b.replacement.shape)
      (sub : e :: Binding.nodes bindings ⊆ [difference, x, y]) : Substitutable e bindings 7 :=
    ⟨leaves, coherent.of_subset sub, fun n hn => older n (sub hn)⟩
  have typed : Typed difference :=
    typed_application (.subtraction .vec3 nofun) 6 rfl
      (List.forall_mem_cons.2 ⟨.leaf 4 "x" .vec3, List.forall_mem_singleton.2 (.leaf 5 "y" .vec3)⟩)
  constructor
  · let bindings : List (Binding ℚ) := [⟨x, x⟩, ⟨x, y⟩, ⟨y, x⟩]
    have standard : ∀ b ∈ bindings, Typed b.replacement := by
      simp only [bindings, List.forall_mem_cons, List.not_mem_nil, false_implies, implies_true,
        and_true]
      exact ⟨.leaf 4 "x" .vec3, .leaf 5 "y" .vec3, .leaf 4 "x" .vec3⟩
    rcases substitute_updates.1 difference bindings ⟨7, #[]⟩ typed standard
      (substitutable _ _ (by simp [bindings, x, y]) (by simp [bindings, Binding.nodes])) with
      ⟨m, w', run, _, _, updated⟩
    refine ⟨m, w', run, fun ρ hx hy => ?_⟩
    have fits : ρ.Fits difference :=
      Assignment.fits_application.2 (List.forall_mem_cons.2 ⟨hx, List.forall_mem_singleton.2 hy⟩)
    have others : ∀ b ∈ bindings, ρ.Fits b.replacement := by
      simp only [bindings, List.forall_mem_cons, List.not_mem_nil, false_implies, implies_true,
        and_true]
      exact ⟨hx, hy, hx⟩
    calc m.value Standard.meaning ρ
        = difference.value Standard.meaning (ρ.update Standard.meaning bindings) :=
          (updated ρ fits others).2
      _ = (Operator.subtraction .vec3 nofun).value [ρ 5, ρ 4] :=
          Node.value_application Standard.meaning _ 6 _ [x, y]
      _ = .zipWith Arithmetic.sub (ρ 5) (ρ 4) := Operator.value_subtraction _ _ .vec3 nofun
  · refine substitute_updates.2 .standard x [⟨y, difference⟩] ⟨7, #[]⟩ ?_ ?_
    · exact substitutable _ _ (by simp [x, y, difference]) (by simp [Binding.nodes])
    · intro b hb reached
      obtain rfl := List.mem_singleton.1 hb
      have same : y = x := reached.eq_of_operands_eq_nil rfl
      exact absurd (congrArg Node.id same) (by decide)

end Standard

end SymbolicLinalg
