import SymbolicLinalg.Lowering
import SymbolicLinalg.Proofs.Growth

/-!
# LoweringPass — what the lowering pass remembers

The pass remembers a lowered form for every application it has met.  What there is to know of lowered
forms depends on the property in question, so it is a parameter: a `FormRelation` says which nodes are
forms of which.  The invariant `Recalls` says that whatever is remembered is a form of the node it is
remembered for.

* `lowerWith_triple`: the pass comes to forms, if what becomes of an application over forms of its
  operands is a form of the application.
-/

namespace SymbolicLinalg

variable {K : Type}

namespace Registry

/-- What becomes of an application when its operands have been lowered. -/
def rewrite (r : Registry K) (again : Node K → Pass K (Node K)) (id : NodeId) (s : Signature)
    (operands lowered : List (Node K)) : Pass K (Node K) := do
  match ← Work.within (r.checkedExpansion? s lowered) with
  | some expanded => again expanded
  | none =>
      if Node.allSame lowered operands then
        pure (.application id s operands)
      else
        Work.within (Node.newApplication s lowered)

theorem lowerWith_application (r : Registry K) (again : Node K → Pass K (Node K)) (id : NodeId)
    (s : Signature) (operands : List (Node K)) :
    r.lowerWith again (.application id s operands) = (do
      match ← Pass.known? id with
      | some known => return known
      | none =>
          Work.within (Work.record (.lowering id s))
          let lowered ← r.lowerAllWith again operands
          let result ← r.rewrite again id s operands lowered
          Pass.remember id result
          Pass.remember result.id result
          return result) := by
  rw [lowerWith]
  congr
  funext known?
  cases known? with
  | some m => rfl
  | none =>
      dsimp only
      congr
      funext _
      congr
      funext lowered
      rw [rewrite, bind_assoc]
      congr
      funext expanded?
      -- the two branches remember the same; they only differ in what becomes of the node
      cases expanded? with
      | some expanded => rfl
      | none =>
          dsimp only
          split
          · rfl
          · rfl

theorem lowerAllWith_eq_mapM (r : Registry K) (again : Node K → Pass K (Node K))
    (nodes : List (Node K)) : r.lowerAllWith again nodes = nodes.mapM (r.lowerWith again) := by
  induction nodes with
  | nil => rw [lowerAllWith, List.mapM_nil]
  | cons n rest ih => rw [lowerAllWith, List.mapM_cons, ih]

end Registry

namespace Node

variable {ms ns nodes : List (Node K)}

/-- Nodes with the identities of others are the others. -/
theorem eq_of_allSame (coherent : Coherent nodes) (hm : ∀ m ∈ ms, Below nodes m)
    (hn : ∀ n ∈ ns, Below nodes n) (length : ms.length = ns.length)
    (same : allSame ms ns = true) : ms = ns := by
  induction ms generalizing ns with
  | nil => exact (List.eq_nil_of_length_eq_zero length.symm).symm
  | cons m ms ih =>
      cases ns with
      | nil => exact absurd length (Nat.succ_ne_zero _)
      | cons n ns =>
          rw [allSame, Bool.and_eq_true] at same
          rw [List.forall_mem_cons] at hm hn
          have first := coherent.eq_of_id_eq hm.1 hn.1 (beq_iff_eq.1 same.1)
          rw [first, ih hm.2 hn.2 (Nat.succ.inj length) same.2]

theorem allSame_self (ns : List (Node K)) : allSame ns ns = true := by
  induction ns with
  | nil => rfl
  | cons n rest ih =>
      rw [allSame, ih, Bool.and_true]
      exact beq_self_eq_true n.id

end Node

/-! ## Forms -/

/-- Which nodes are known to be forms of which.  A form lies below given nodes and stays a form when
nodes are added, and whatever is a form is its own form. -/
structure FormRelation (K : Type) where
  holds : List (Node K) → Node K → Node K → Prop
  below {given : List (Node K)} {n m : Node K} : holds given n m → Node.Below given m
  mono {given more : List (Node K)} {n m : Node K} : given ⊆ more → holds given n m → holds more n m
  self {given : List (Node K)} {n m : Node K} : holds given n m → holds given m m

theorem FormRelation.forall_below {F : FormRelation K} {given operands forms : List (Node K)}
    (h : List.Forall₂ (F.holds given) operands forms) : ∀ m ∈ forms, Node.Below given m := by
  induction h with
  | nil => exact fun m hm => absurd hm List.not_mem_nil
  | cons first _ ih => exact List.forall_mem_cons.2 ⟨F.below first, ih⟩

/-- The forms are around, and whatever is remembered is a form. -/
structure Recalls (F : FormRelation K) (names : String → Prop) (given others : List (Node K))
    (s : Workspace K × Memo K) : Prop where
  stock : Stock names given others s.1.nextId
  memo : ∀ id m, s.2[id]? = some m →
    ∃ n, n.id = id ∧ Node.Below (given ++ others) n ∧ F.holds given n m

theorem subset_append_left {given more : List (Node K)} (others : List (Node K))
    (sub : given ⊆ more) : given ++ others ⊆ more ++ others :=
  List.append_subset.2 ⟨List.subset_append_of_subset_left others sub,
    List.subset_append_right more others⟩

namespace Recalls

variable {F : FormRelation K} {names : String → Prop} {given more others : List (Node K)}
  {n m : Node K} {w w' : Workspace K} {memo : Memo K}

theorem empty (stock : Stock names given others w.nextId) : Recalls F names given others (w, ∅) := by
  refine ⟨stock, fun id m found => ?_⟩
  rw [Std.HashMap.getElem?_empty] at found
  exact absurd found nofun

theorem known (h : Recalls F names given others (w, memo)) (below : Node.Below (given ++ others) n)
    (found : memo[n.id]? = some m) : F.holds given n m := by
  rcases h.memo n.id m found with ⟨k, same, below', form⟩
  rwa [h.stock.coherent.eq_of_id_eq below' below same] at form

theorem remember (h : Recalls F names given others (w, memo))
    (below : Node.Below (given ++ others) n) (form : F.holds given n m) :
    Recalls F names given others (w, memo.insert n.id m) := by
  refine ⟨h.stock, fun id k found => ?_⟩
  dsimp only at found
  rw [Std.HashMap.getElem?_insert] at found
  split at found
  · rename_i same
    obtain rfl := Option.some.inj found
    exact ⟨n, beq_iff_eq.1 same, below, form⟩
  · exact h.memo id k found

/-- What has been remembered stays true when nodes are added. -/
theorem mono (h : Recalls F names given others (w, memo)) (sub : given ⊆ more)
    (stock : Stock names more others w'.nextId) : Recalls F names more others (w', memo) := by
  refine ⟨stock, fun id m found => ?_⟩
  rcases h.memo id m found with ⟨n, same, below, form⟩
  exact ⟨n, same, below.mono (subset_append_left others sub), F.mono sub form⟩

/-- And when other nodes are around as well. -/
theorem beside (h : Recalls F names given others (w, memo)) (sub : others ⊆ more)
    (stock : Stock names given more w'.nextId) : Recalls F names given more (w', memo) := by
  refine ⟨stock, fun id m found => ?_⟩
  rcases h.memo id m found with ⟨n, same, below, form⟩
  have around : given ++ others ⊆ given ++ more :=
    List.append_subset.2 ⟨List.subset_append_left given more,
      List.subset_append_of_subset_right given sub⟩
  exact ⟨n, same, below.mono around, form⟩

theorem later {state : Workspace K × Memo K} (h : Recalls F names given others state)
    (later : state.1.nextId ≤ w.nextId) : Recalls F names given others (w, state.2) where
  stock := { h.stock with older := fun n hn => (h.stock.older n hn).mono later }
  memo := h.memo

end Recalls

/-! ## The pass -/

/-- A node is lowered to a form of it, which is added to what is around. -/
def Lowers (F : FormRelation K) (names : String → Prop) (captured others : List (Node K))
    (fault : Fault → Workspace K × Memo K → Prop) (lower : Node K → Pass K (Node K))
    (n : Node K) : Prop :=
  ∀ given, captured ⊆ given → Node.Below (given ++ others) n →
    Triple (Recalls F names given others) (lower n)
      (fun m s => ∃ more, given ⊆ more ∧ F.holds more n m ∧ Recalls F names more others s) fault

variable {F : FormRelation K} {names : String → Prop} {captured given others : List (Node K)}
  {fault : Fault → Workspace K × Memo K → Prop} {r : Registry K} {n m : Node K}
  {again : Node K → Pass K (Node K)}

theorem Lowers.of_run {lower : Node K → Pass K (Node K)} {s s' : Workspace K × Memo K}
    (h : Lowers F names captured others fault lower n) (held : captured ⊆ given)
    (recalls : Recalls F names given others s) (below : Node.Below (given ++ others) n)
    (run : (lower n).run.run s = (.ok m, s')) :
    ∃ more, given ⊆ more ∧ F.holds more n m ∧ Recalls F names more others s' := by
  have settled := h given held below s recalls
  rwa [run] at settled

/-- A node that is its own form is left as it is. -/
theorem lowers_itself (only : n.AppliesOnly fun s => names s.name)
    (form : ∀ more, Node.Below more n → F.holds more n n) :
    Lowers F names captured others fault pure n := by
  intro given _ below
  refine .value fun s h => ?_
  have sub := List.subset_cons_self n given
  exact ⟨n :: given, sub, form _ (.of_mem List.mem_cons_self), h.mono sub (h.stock.cons below only)⟩

/-- Nodes are lowered one after the other. -/
theorem lowersAll {lower : Node K → Pass K (Node K)} {nodes : List (Node K)}
    (each : ∀ n ∈ nodes, Lowers F names captured others fault lower n)
    (held : captured ⊆ given) (below : ∀ n ∈ nodes, Node.Below (given ++ others) n) :
    Triple (Recalls F names given others) (nodes.mapM lower)
      (fun ms s => ∃ more, given ⊆ more ∧ List.Forall₂ (F.holds more) nodes ms ∧
        Recalls F names more others s) fault := by
  induction nodes generalizing given with
  | nil =>
      exact .value fun s h => ⟨given, List.Subset.refl given, .nil, h⟩
  | cons n rest ih =>
      rw [List.mapM_cons]
      refine (each n List.mem_cons_self given held (below n List.mem_cons_self)).bind ?_
      intro m
      refine Triple.of_exists fun more => .assuming fun sub => .assuming ?_
      intro first
      refine (ih (fun k hk => each k (List.mem_cons_of_mem n hk)) (List.Subset.trans held sub)
        fun k hk => (below k (List.mem_cons_of_mem n hk)).mono
          (subset_append_left others sub)).bind ?_
      intro ms s hs
      rcases hs with ⟨all, sub', rest, h⟩
      -- the form of the first node is still around after the others
      exact ⟨all, List.Subset.trans sub sub', .cons (F.mono sub' first) rest, h⟩

/-- An application that is not expanded stays as it is over unchanged operands, and is made anew over
others. -/
theorem keeping_triple {id : NodeId} {s : Signature} {operands lowered : List (Node K)}
    (forms : List.Forall₂ (F.holds given) operands lowered)
    (below : Node.Below (given ++ others) (.application id s operands)) (allowed : names s.name)
    (unchanged : lowered = operands → ∀ more, Node.Below more (.application id s operands) →
      F.holds more (.application id s operands) (.application id s operands))
    (changed : lowered ≠ operands → ∀ i more, Node.Below more (.application i s lowered) →
      F.holds more (.application id s operands) (.application i s lowered)) :
    Triple (Recalls F names given others)
      (if Node.allSame lowered operands then pure (.application id s operands)
      else Work.within (Node.newApplication s lowered))
      (fun m s' => ∃ more, given ⊆ more ∧ F.holds more (.application id s operands) m ∧
        Recalls F names more others s') fault := by
  have belowLowered := FormRelation.forall_below forms
  split
  · rename_i same
    intro s' h
    have equal : lowered = operands := by
      refine Node.eq_of_allSame h.stock.coherent (fun m hm => ?_) (fun m hm => ?_)
        forms.length_eq.symm same
      · exact (belowLowered m hm).mono (List.subset_append_left given others)
      · exact below.of_reaches (.of_mem_operands hm)
    have only : (Node.application id s operands).AppliesOnly fun s => names s.name :=
      Node.appliesOnly_application.2
        ⟨allowed, fun m hm => h.stock.only_of_below (belowLowered m (equal ▸ hm))⟩
    have sub := List.subset_cons_self (Node.application id s operands) given
    exact ⟨_, sub, unchanged equal _ (.of_mem List.mem_cons_self),
      h.mono sub (h.stock.cons below only)⟩
  · rename_i differs
    refine .within fun memo w h => ?_
    let made := Node.application w.nextId s lowered
    have sub : given ⊆ made :: given := List.subset_cons_self made given
    have stock : Stock names (made :: given) others (w.nextId + 1) :=
      h.stock.cons_of_fresh rfl belowLowered fun t ht => Option.some.inj ht ▸ allowed
    refine ⟨made :: given, sub, changed ?_ _ _ (.of_mem List.mem_cons_self), h.mono sub stock⟩
    rintro rfl
    exact differs (Node.allSame_self lowered)

/-- Where the hooks answer, what they answer is lowered in its turn; where they do not, the application
is kept, as the same node if it is over the same operands. -/
theorem rewrite_triple {id : NodeId} {s : Signature} {operands lowered : List (Node K)}
    (answer : Option (Node K) → Prop) (forms : List.Forall₂ (F.holds given) operands lowered)
    (below : Node.Below (given ++ others) (.application id s operands)) (held : captured ⊆ given)
    (asked : ∀ memo, Triple (fun w => Recalls F names given others (w, memo))
      (r.checkedExpansion? s lowered)
      (fun n? w => answer n? ∧ Stock names (n?.toList ++ given) others w.nextId)
      fun f w => fault f (w, memo))
    (allowed : answer none → names s.name)
    (kept : answer none → ∀ i more, (lowered = operands → i = id) →
      Node.Below more (.application i s lowered) →
        F.holds more (.application id s operands) (.application i s lowered))
    (nested : ∀ n, answer (some n) → Lowers F names captured others fault again n)
    (answered : ∀ n m more, answer (some n) → F.holds more n m →
      F.holds more (.application id s operands) m) :
    Triple (Recalls F names given others) (r.rewrite again id s operands lowered)
      (fun m s' => ∃ more, given ⊆ more ∧ F.holds more (.application id s operands) m ∧
        Recalls F names more others s') fault := by
  -- asking adds to what is around, and leaves what is remembered alone
  refine Triple.bind (m := fun n? s' => answer n? ∧ ∃ w, Recalls F names given others (w, s'.2) ∧
    Stock names (n?.toList ++ given) others s'.1.nextId) (.within fun memo w h => ?_) fun n? => ?_
  · exact (asked memo w h).imp (fun n? w' ⟨answer, stock⟩ => ⟨answer, w, h, stock⟩) fun _ _ h => h
  · rintro ⟨w', memo⟩ ⟨answer, w, h, stock⟩
    cases n? with
    | none =>
        refine keeping_triple forms below (allowed answer) ?_ ?_ (w', memo) ⟨stock, h.memo⟩
        · rintro rfl more here
          exact kept answer id more (fun _ => rfl) here
        · exact fun changed i more here => kept answer i more (fun same => absurd same changed) here
    | some n =>
        have added : Recalls F names (n :: given) others (w', memo) :=
          h.mono (List.subset_cons_self n given) stock
        refine (nested n answer (n :: given) (List.subset_cons_of_subset n held)
          (.of_mem List.mem_cons_self) (w', memo) added).imp ?_ fun _ _ h => h
        rintro m s' ⟨more, sub, form, recalls⟩
        exact ⟨more, List.subset_of_cons_subset sub, answered n m more answer form, recalls⟩

/-- What an application is lowered to is remembered for it, and for itself. -/
theorem remembering_both (below : Node.Below (given ++ others) n) :
    Triple (fun s => ∃ more, given ⊆ more ∧ F.holds more n m ∧ Recalls F names more others s)
      (do
        Pass.remember n.id m
        Pass.remember m.id m
        return m)
      (fun m s => ∃ more, given ⊆ more ∧ F.holds more n m ∧ Recalls F names more others s)
      fault := by
  intro s hs
  rcases s with ⟨w, memo⟩
  rcases hs with ⟨more, sub, form, h⟩
  -- first for the node, then for the lowered form itself
  have first := h.remember (below.mono (subset_append_left others sub)) form
  have second := first.remember
    ((F.below form).mono (List.subset_append_left more others)) (F.self form)
  exact ⟨more, sub, form, second⟩

/-- The pass comes to forms, by induction on the expression.  What is assumed of it is inherited by
operands. -/
theorem lowerWith_triple {P : Node K → Prop} (inherits : ∀ n, P n → ∀ m ∈ n.operands, P m)
    (plain : ∀ n, P n → n.isApplication = false → Lowers F names captured others fault pure n)
    (rewrites : ∀ id s operands lowered given, P (.application id s operands) → captured ⊆ given →
      Node.Below (given ++ others) (.application id s operands) →
      List.Forall₂ (F.holds given) operands lowered →
      Triple (Recalls F names given others) (r.rewrite again id s operands lowered)
        (fun m s' => ∃ more, given ⊆ more ∧ F.holds more (.application id s operands) m ∧
          Recalls F names more others s') fault)
    (h : P n) : Lowers F names captured others fault (r.lowerWith again) n := by
  intro given held below
  induction n using Node.induct generalizing given with
  | constant id v =>
      rw [Registry.lowerWith]
      exact plain _ h rfl given held below
  | leaf id name s =>
      rw [Registry.lowerWith]
      exact plain _ h rfl given held below
  | application id s operands ih =>
      have operand (m : Node K) (hm : m ∈ operands) :
          (Node.application id s operands).Reaches m := .of_mem_operands hm
      have lowers (m : Node K) (hm : m ∈ operands) :
          Lowers F names captured others fault (r.lowerWith again) m :=
        ih m hm (inherits _ h m hm)
      rw [Registry.lowerWith_application]
      refine (Pass.known?_triple id).bind fun known? => ?_
      cases known? with
      -- the application has been met before
      | some m =>
          intro s hs
          rcases hs with ⟨recalls, found⟩
          exact ⟨given, List.Subset.refl given, recalls.known below found.symm, recalls⟩
      | none =>
          refine Triple.bind (m := fun _ s => Recalls F names given others s)
            (.within fun _ _ h => ⟨h.1.stock, h.1.memo⟩) fun _ => ?_
          -- the operands come first, each adding to what is around
          have allBelow (m : Node K) (hm : m ∈ operands) : Node.Below (given ++ others) m :=
            below.of_reaches (operand m hm)
          rw [Registry.lowerAllWith_eq_mapM]
          refine (lowersAll lowers held allBelow).bind fun lowered => ?_
          refine Triple.of_exists fun first => .assuming fun sub => .assuming ?_
          intro forms
          have here := below.mono (subset_append_left others sub)
          refine (rewrites id s operands lowered first h (List.Subset.trans held sub) here
            forms).bind fun m => ?_
          refine (remembering_both here).relax fun m s ⟨more, sub', form, recalls⟩ => ?_
          exact ⟨more, List.Subset.trans sub sub', form, recalls⟩

/-- Expansions may be nested, as deeply as is allowed: what goes for a pass that lowers its expansions
goes for lowering, unless the limit is reached. -/
theorem lowerNext_triple {P : Node K → Prop}
    (level : ∀ again, (∀ n, P n → Lowers F names captured others fault again n) →
      ∀ n, P n → Lowers F names captured others fault (r.lowerWith again) n)
    (exhausted : ∀ given s, captured ⊆ given → Recalls F names given others s → fault .nesting s)
    (h : P n) : Lowers F names captured others fault r.lowerNext n := by
  have levels (depth : Nat) : ∀ n : Node K, P n →
      Lowers F names captured others fault (r.lowerWithin depth) n := by
    induction depth with
    | zero => exact fun _ _ given held _ => .giveUp fun s recalls => exhausted given s held recalls
    | succ depth ih => exact level (r.lowerWithin depth) ih
  exact levels nestingLimit n h

end SymbolicLinalg
