import SymbolicLinalg.Derivative
import SymbolicLinalg.Substitution
import SymbolicLinalg.Proofs.LoweringPass

/-!
# Traversal — what the passes remember

Folding, substitution and differentiation look a node up before they work on it, and remember what
has become of it, as lowering does.  Whatever a `FormRelation` says of the nodes that are remembered,
the passes come to forms of their nodes, if each of them does so for one application over forms of its
operands.

* `knowing`, `remembering`: a node is looked up, and its form is remembered;
* `foldApplication_triple`: an application is folded;
* `foldNode_triple`, `substituteNode_triple`: the passes come to forms, by induction on the expression;
* `Registry.exists_binding`: what substitution knows from the beginning.
-/

namespace SymbolicLinalg

variable {K : Type}

namespace Registry

theorem foldNodes_eq_mapM (r : Registry K) (nodes : List (Node K)) :
    r.foldNodes nodes = nodes.mapM r.foldNode := by
  induction nodes with
  | nil => rw [foldNodes, List.mapM_nil]
  | cons n rest ih => rw [foldNodes, List.mapM_cons, ih]

theorem substituteNodes_eq_mapM (r : Registry K) (nodes : List (Node K)) :
    r.substituteNodes nodes = nodes.mapM r.substituteNode := by
  induction nodes with
  | nil => rw [substituteNodes, List.mapM_nil]
  | cons n rest ih => rw [substituteNodes, List.mapM_cons, ih]

section

variable [Arithmetic K]

/-- A request is answered by differentiating an operand, or it is left to the other pass. -/
theorem answerDerivative_cases (r : Registry K) (wrt : Node K) (again : Node K → Pass K (Node K))
    (operands : List (Node K)) (n : Node K) :
    (∃ m ∈ operands, answerDerivative (derivesWith r wrt again operands) again n =
        deriveWith r wrt again m) ∨
      answerDerivative (derivesWith r wrt again operands) again n = again n := by
  rw [answerDerivative, derivesWith_eq_map]
  split
  · rename_i derive found
    -- the list pairs the identity of each operand with the work of differentiating it
    rcases List.lookup_eq_some_iff.1 found with ⟨before, after, parts, _⟩
    have listed : (n.id, derive) ∈ operands.map fun m => (m.id, deriveWith r wrt again m) :=
      parts ▸ List.mem_append_cons_self
    rcases List.mem_map.1 listed with ⟨m, hm, same⟩
    exact .inl ⟨m, hm, (Prod.mk.inj same).2.symm⟩
  · exact .inr rfl

end

/-- What becomes of an application when its operands have been replaced. -/
def refit (r : Registry K) (id : NodeId) (s : Signature) (operands replaced : List (Node K)) :
    Pass K (Node K) :=
  if Node.allSame replaced operands then
    pure (.application id s operands)
  else
    Work.within (r.rebuild s replaced)

theorem substituteNode_application (r : Registry K) (id : NodeId) (s : Signature)
    (operands : List (Node K)) :
    r.substituteNode (.application id s operands) = (do
      match ← Pass.known? id with
      | some known => return known
      | none =>
          let replaced ← operands.mapM r.substituteNode
          let result ← r.refit id s operands replaced
          Pass.remember id result
          return result) := by
  rw [substituteNode, Node.id_application]
  congr
  funext known?
  cases known? with
  | some m => rfl
  | none =>
      dsimp only
      rw [substituteNodes_eq_mapM]
      congr
      funext replaced
      rw [refit]
      split
      · rfl
      · rfl

end Registry

/-- A form of the node has been added to what is around. -/
abbrev Finds (F : FormRelation K) (names : String → Prop) (given others : List (Node K))
    (n m : Node K) (s : Workspace K × Memo K) : Prop :=
  ∃ more, given ⊆ more ∧ F.holds more n m ∧ Recalls F names more others s

variable {F : FormRelation K} {names : String → Prop} {captured given more others : List (Node K)}
  {fault : Fault → Workspace K × Memo K → Prop} {r : Registry K} {n m : Node K}

theorem Finds.trans {s : Workspace K × Memo K} (h : Finds F names more others n m s)
    (sub : given ⊆ more) : Finds F names given others n m s := by
  rcases h with ⟨all, sub', form, recalls⟩
  exact ⟨all, List.Subset.trans sub sub', form, recalls⟩

/-- A node is looked up before it is worked on. -/
theorem knowing {otherwise : Pass K (Node K)} (below : Node.Below (given ++ others) n)
    (h : Triple (Recalls F names given others) otherwise (Finds F names given others n) fault) :
    Triple (Recalls F names given others)
      (do
        match ← Pass.known? n.id with
        | some known => return known
        | none => otherwise)
      (Finds F names given others n) fault := by
  refine (Pass.known?_triple n.id).bind fun known? => ?_
  cases known? with
  | some m =>
      intro s hs
      rcases hs with ⟨recalls, found⟩
      -- a node is not worked on twice: that the answer is a form is what the memo is known for
      exact ⟨given, List.Subset.refl given, recalls.known below found.symm, recalls⟩
  | none => exact h.strengthen fun s hs => hs.1

/-- What has become of a node is remembered for it. -/
theorem remembering (below : Node.Below (given ++ others) n) :
    Triple (Finds F names given others n m)
      (do
        Pass.remember n.id m
        return m)
      (Finds F names given others n) fault := by
  intro s hs
  rcases s with ⟨w, memo⟩
  rcases hs with ⟨more, sub, form, recalls⟩
  exact ⟨more, sub, form, recalls.remember (below.mono (subset_append_left others sub)) form⟩

/-- An application is remade over forms of its operands. -/
theorem remaking {id : NodeId} {s : Signature} {operands : List (Node K)}
    {visit : Node K → Pass K (Node K)} {finish : List (Node K) → Pass K (Node K)}
    (held : captured ⊆ given) (below : Node.Below (given ++ others) (.application id s operands))
    (visits : ∀ m ∈ operands, Lowers F names captured others fault visit m)
    (finishes : ∀ results more, captured ⊆ more →
      Node.Below (more ++ others) (.application id s operands) →
      List.Forall₂ (F.holds more) operands results →
      Triple (Recalls F names more others) (finish results)
        (Finds F names more others (.application id s operands)) fault) :
    Triple (Recalls F names given others)
      (do
        let results ← operands.mapM visit
        let result ← finish results
        Pass.remember id result
        return result)
      (Finds F names given others (.application id s operands)) fault := by
  have parts (m : Node K) (hm : m ∈ operands) : Node.Below (given ++ others) m :=
    below.of_reaches (.of_mem_operands hm)
  refine (lowersAll visits held parts).bind fun results => ?_
  refine Triple.of_exists fun more => .assuming fun sub => .assuming fun forms => ?_
  -- the operands may have added nodes, so there is more to finish the application over
  have here := below.mono (subset_append_left others sub)
  refine (finishes results more (List.Subset.trans held sub) here forms).bind fun m => ?_
  exact (remembering here).relax fun m s found => found.trans sub

/-- The application has no hook that folds it, or one of the operands is not a constant. -/
def Registry.Unfolded (r : Registry K) (s : Signature) (folded : List (Node K)) : Prop :=
  (r.hooks s).fold = none ∨ Node.literals? folded = none

/-- An application over folded operands is computed, kept as it is or built anew. -/
theorem foldApplication_triple {id : NodeId} {s : Signature} {operands folded : List (Node K)}
    (forms : List.Forall₂ (F.holds given) operands folded)
    (below : Node.Below (given ++ others) (.application id s operands))
    (only : (Node.application id s operands).AppliesOnly fun s => names s.name)
    (computed : ∀ fold values, (r.hooks s).fold = some fold → Node.literals? folded = some values →
      (fold values).shape = s.result ∧ ∀ i more, Node.Below more (.constant i (fold values)) →
        F.holds more (.application id s operands) (.constant i (fold values)))
    (kept : r.Unfolded s folded → folded = operands → ∀ more,
      Node.Below more (.application id s operands) →
        F.holds more (.application id s operands) (.application id s operands))
    (rebuilt : r.Unfolded s folded → folded ≠ operands →
      Triple (fun w => Stock names given others w.nextId) (r.rebuild s folded)
        (fun n w => Stock names (n :: given) others w.nextId ∧ ∀ more, Node.Below more n →
          F.holds more (.application id s operands) n) never) :
    Triple (Recalls F names given others)
      (Work.within (r.foldApplication s operands folded (.application id s operands)))
      (Finds F names given others (.application id s operands)) never := by
  refine .within fun memo w h => ?_
  have adding {n : Node K} {w' : Workspace K} (stock : Stock names (n :: given) others w'.nextId)
      (form : ∀ more, Node.Below more n → F.holds more (.application id s operands) n) :
      Finds F names given others (.application id s operands) n (w', memo) := by
    have sub := List.subset_cons_self n given
    exact ⟨n :: given, sub, form _ (.of_mem List.mem_cons_self), h.mono sub stock⟩
  -- what is not computed is kept, if the operands are the same nodes, and else rebuilt
  have otherwise (unfolded : r.Unfolded s folded) : Settles
      (fun n w => Finds F names given others (.application id s operands) n (w, memo))
      (fun _ _ => False)
      ((if Node.allSame folded operands then pure (.application id s operands)
        else r.rebuild s folded : Work K (Node K)).run.run w) := by
    split
    · rename_i same
      have equal : folded = operands := by
        refine Node.eq_of_allSame h.stock.coherent (fun m hm => ?_) (fun m hm => ?_)
          forms.length_eq.symm same
        · exact (FormRelation.forall_below forms m hm).mono (List.subset_append_left given others)
        · exact below.of_reaches (.of_mem_operands hm)
      exact adding (h.stock.cons below only) (kept unfolded equal)
    · rename_i differs
      have changed : folded ≠ operands := by
        rintro rfl
        exact differs (Node.allSame_self folded)
      exact (rebuilt unfolded changed w h.stock).imp (fun n w' hn => adding hn.1 hn.2)
        fun _ _ => False.elim
  rw [Registry.foldApplication]
  cases hook : (r.hooks s).fold with
  | none => exact otherwise (.inl hook)
  | some fold =>
      cases literals : Node.literals? folded with
      | none => exact otherwise (.inr literals)
      | some values =>
          rcases computed fold values hook literals with ⟨shape, form⟩
          dsimp only
          rw [if_neg (not_not_intro shape)]
          exact adding (h.stock.cons_of_fresh rfl (by simp) nofun) (form w.nextId)

/-- Folding comes to forms, by induction on the expression. -/
theorem foldNode_triple {P : Node K → Prop} (inherits : ∀ n, P n → ∀ m ∈ n.operands, P m)
    (plain : ∀ n, P n → n.isApplication = false → Lowers F names captured others fault pure n)
    (folds : ∀ id s operands folded given, P (.application id s operands) → captured ⊆ given →
      Node.Below (given ++ others) (.application id s operands) →
      List.Forall₂ (F.holds given) operands folded →
      Triple (Recalls F names given others)
        (Work.within (r.foldApplication s operands folded (.application id s operands)))
        (Finds F names given others (.application id s operands)) fault)
    (h : P n) : Lowers F names captured others fault r.foldNode n := by
  intro given held below
  induction n using Node.induct generalizing given with
  | constant id v =>
      rw [Registry.foldNode]
      exact plain _ h rfl given held below
  | leaf id name s =>
      rw [Registry.foldNode]
      exact plain _ h rfl given held below
  | application id s operands ih =>
      rw [Registry.foldNode, Registry.foldNodes_eq_mapM]
      refine knowing below (remaking held below (fun m hm => ?_) fun folded more held' here forms => ?_)
      · exact ih m hm (inherits _ h m hm)
      · exact folds id s operands folded more h held' here forms

/-- Substitution comes to forms, by induction on the expression.  The leaves that are replaced are
known from the beginning. -/
theorem substituteNode_triple {P : Node K → Prop} (inherits : ∀ n, P n → ∀ m ∈ n.operands, P m)
    (plain : ∀ n, P n → n.isApplication = false → Lowers F names captured others fault pure n)
    (rebuilds : ∀ id s operands replaced given, P (.application id s operands) → captured ⊆ given →
      Node.Below (given ++ others) (.application id s operands) →
      List.Forall₂ (F.holds given) operands replaced →
      Triple (Recalls F names given others) (r.refit id s operands replaced)
        (Finds F names given others (.application id s operands)) fault)
    (h : P n) : Lowers F names captured others fault r.substituteNode n := by
  intro given held below
  induction n using Node.induct generalizing given with
  | constant id v =>
      rw [Registry.substituteNode]
      exact knowing below (plain _ h rfl given held below)
  | leaf id name s =>
      rw [Registry.substituteNode]
      exact knowing below (plain _ h rfl given held below)
  | application id s operands ih =>
      rw [Registry.substituteNode_application]
      refine knowing below
        (remaking held below (fun m hm => ?_) fun replaced more held' here forms => ?_)
      · exact ih m hm (inherits _ h m hm)
      · exact rebuilds id s operands replaced more h held' here forms

/-! ## Bindings -/

namespace Registry

/-- What the pass knows of leaves from the beginning, it knows from a binding. -/
theorem exists_binding {bindings : List (Binding K)} {id : NodeId}
    (found : (bindingMemo bindings)[id]? = some m) :
    ∃ b ∈ bindings, b.leaf.id = id ∧ b.replacement = m := by
  -- the memo is filled from the left, and a later binding of a leaf takes the place of an earlier one
  have general (bindings : List (Binding K)) (memo : Memo K)
      (found : (bindings.foldl (fun memo b => memo.insert b.leaf.id b.replacement) memo)[id]? =
        some m) :
      memo[id]? = some m ∨ ∃ b ∈ bindings, b.leaf.id = id ∧ b.replacement = m := by
    induction bindings generalizing memo with
    | nil => exact .inl found
    | cons b rest ih =>
        rcases ih (memo.insert b.leaf.id b.replacement) found with known | ⟨c, hc, same⟩
        · rw [Std.HashMap.getElem?_insert] at known
          split at known
          · rename_i same
            exact .inr ⟨b, List.mem_cons_self, beq_iff_eq.1 same, Option.some.inj known⟩
          · exact .inl known
        · exact .inr ⟨c, List.mem_cons_of_mem b hc, same⟩
  rcases general bindings ∅ found with known | bound
  · simp at known
  · exact bound

theorem shapes_of_checkBinding [Arithmetic K] [Numeral K] {bindings : List (Binding K)}
    (accepted : bindings.forM checkBinding = .ok ()) :
    ∀ b ∈ bindings, b.leaf.shape = b.replacement.shape := by
  induction bindings with
  | nil => exact fun b hb => absurd hb List.not_mem_nil
  | cons b rest ih =>
      rw [List.forM] at accepted
      cases first : checkBinding b with
      | error e =>
          rw [first] at accepted
          exact absurd accepted nofun
      | ok _ =>
          rw [first] at accepted
          refine List.forall_mem_cons.2 ⟨?_, ih accepted⟩
          rw [checkBinding] at first
          split at first
          · exact absurd first nofun
          · split at first
            · exact absurd first nofun
            · rename_i same
              exact not_not.1 same

end Registry

end SymbolicLinalg
