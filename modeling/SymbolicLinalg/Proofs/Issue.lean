import SymbolicLinalg.Derivative
import SymbolicLinalg.Gradient
import SymbolicLinalg.Proofs.Component
import SymbolicLinalg.Proofs.Composition
import SymbolicLinalg.Proofs.Relevance
import SymbolicLinalg.Proofs.Traversal

/-!
# Issue — what is made of well-typed expressions

The passes make new expressions out of those that are around: derivatives and gradients.  If the hooks
of the operators draw on what they are given and make complete constants only, then whatever a pass
hands out is well typed and coherent with what was around, so it may be handed to another pass.

* `Registry.make_typed`: construction over well-typed nodes comes to well-typed nodes;
* `derivative_issues`, `backpropFrom_issues`: what the passes hand out;
* `Registry.Issues.around`: so it goes on, with whatever is made of what has been made.
-/

namespace SymbolicLinalg

variable {K : Type}

/-! ## Complete constants -/

/-- A constant that is made has the components of its shape. -/
def Construction.Complete : Construction K → Prop
  | .constant v => v.Complete
  | .leaf _ _ | .apply _ _ | .applyFor _ _ _ => True

/-- All constants that a recipe makes are complete. -/
def Recipe.Complete {ρ σ α : Type} : Recipe K ρ σ α → Prop
  | .done _ | .refuse _ => True
  | .make c next => c.Complete ∧ ∀ n, (next n).Complete
  | .ask _ next => ∀ answer, (next answer).Complete

/-- A recipe draws on given nodes and makes complete constants. -/
structure Recipe.Thrift {ρ σ α : Type} [Dialogue K ρ σ] (given : List (Node K))
    (post : List (Node K) → α → Prop) (recipe : Recipe K ρ σ α) : Prop where
  draws : recipe.Draws Registry.anyName given post
  complete : recipe.Complete

namespace Registry

variable {r : Registry K} {α : Type} {given operands : List (Node K)} {s : Signature}

/-- The `optimize` hooks make complete constants over operands that fit. -/
def Completes (r : Registry K) : Prop :=
  ∀ d ∈ r.definitions, ∀ optimize, d.hooks.optimize = some optimize →
    ∀ operands, (∀ m ∈ operands, m.WellTyped r.Knows) →
      operands.map Node.shape = d.signature.operands → (optimize operands).Complete

/-- Well-typed nodes come out of construction if they go in. -/
def MakesTyped (r : Registry K) (make : Construction K → Work K (Node K)) : Prop :=
  ∀ c given, c.Complete → c.Draws anyName given → (∀ n ∈ given, n.WellTyped r.Knows) →
    Triple (fun _ => True) (make c) (fun n _ => n.WellTyped r.Knows) fun _ _ => True

theorem wellTyped_of_below {n : Node K} (typed : ∀ m ∈ given, m.WellTyped r.Knows)
    (below : Node.Below given n) : n.WellTyped r.Knows := by
  rcases below with ⟨m, hm, below⟩
  exact (typed m hm).of_reaches below

theorem follow_typed {make : Construction K → Work K (Node K)} (makes : r.MakesTyped make)
    {rule : Rule K α} {post : List (Node K) → α → Prop} (draws : rule.Draws anyName given post)
    (complete : rule.Complete) (typed : ∀ n ∈ given, n.WellTyped r.Knows) :
    Triple (fun _ => True) (follow make rule)
      (fun a _ => ∃ now, post now a ∧ ∀ n ∈ now, n.WellTyped r.Knows) fun _ _ => True := by
  induction rule generalizing given with
  | done a => exact .value fun _ _ => ⟨given, draws, typed⟩
  | refuse e => exact .refuse fun _ _ => trivial
  | make c next ih =>
      refine (makes c given complete.1 draws.1 typed).bind fun n => ?_
      intro w hn
      exact ih n (draws.2 n) (complete.2 n) (List.forall_mem_cons.2 ⟨hn, typed⟩) w trivial
  | ask request next => exact request.elim

theorem buildWith_typed (draws : r.Draws anyName []) (completes : r.Completes)
    {make : Construction K → Work K (Node K)} (makes : r.MakesTyped make) {d : Definition K}
    (hd : d ∈ r.definitions) (typed : ∀ m ∈ operands, m.WellTyped r.Knows) :
    Triple (fun _ => True) (buildWith make d operands) (fun n _ => n.WellTyped r.Knows)
      fun _ _ => True := by
  rw [buildWith]
  refine Triple.bind (m := fun _ _ => operands.map Node.shape = d.signature.operands ∧ True)
    (.ofExcept (fun _ accepted _ _ => ⟨shapes_of_checkOperands_eq_ok accepted, trivial⟩)
      fun _ _ _ _ => trivial) fun _ => .assuming fun shapes => ?_
  refine Triple.bind (m := fun n? _ => ∀ n ∈ n?, n.WellTyped r.Knows) ?_ fun n? => ?_
  · rw [simplify?]
    cases hook : d.hooks.optimize with
    | none => exact .value fun _ _ n hn => absurd hn (Option.not_mem_none n)
    | some optimize =>
        have drawn := draws d hd trivial optimize hook operands operands (List.nil_subset _)
          fun m hm => .of_mem hm
        refine (follow_typed makes drawn (completes d hd optimize hook operands typed shapes)
          typed).relax ?_
        intro n? w hs n hn
        rcases hs with ⟨now, below, typed⟩
        exact wellTyped_of_below typed (below n hn)
  · intro w answer
    cases n? with
    | none => exact Node.WellTyped.application _ ⟨d, hd, rfl⟩ shapes typed
    | some n =>
        rw [settle]
        split
        · trivial
        · exact answer n rfl

theorem makeWith_typed (draws : r.Draws anyName []) (completes : r.Completes)
    {make : Construction K → Work K (Node K)} (makes : r.MakesTyped make) :
    r.MakesTyped (r.makeWith make) := by
  intro c given complete drawn typed
  have built {resolved : Except Error (Definition K)} {operands : List (Node K)}
      (known : ∀ d, resolved = .ok d → d ∈ r.definitions)
      (below : ∀ m ∈ operands, Node.Below given m) :
      Triple (fun _ => True) (Work.ofExcept resolved >>= fun d => buildWith make d operands)
        (fun n _ => n.WellTyped r.Knows) fun _ _ => True := by
    refine Triple.bind (m := fun d _ => d ∈ r.definitions ∧ True)
      (.ofExcept (fun d found _ _ => ⟨known d found, trivial⟩) fun _ _ _ _ => trivial)
      fun d => .assuming fun hd => ?_
    exact buildWith_typed draws completes makes hd fun m hm => wellTyped_of_below typed (below m hm)
  cases c with
  | constant v => exact fun w _ => Node.WellTyped.constant _ complete
  | leaf name s => exact fun w _ => Node.WellTyped.leaf _ name s
  | apply name operands => exact built (fun d found => (mem_of_resolve_eq_ok found).1) drawn.2
  | applyFor result name operands =>
      exact built (fun d found => (mem_of_resolveAs_eq_ok found).1) drawn.2

theorem make_typed (draws : r.Draws anyName []) (completes : r.Completes) :
    r.MakesTyped r.make := by
  have levels (depth : Nat) : r.MakesTyped (r.makeWithin depth) := by
    induction depth with
    | zero => exact fun _ _ _ _ _ => .giveUp fun _ _ => trivial
    | succ depth ih => exact makeWith_typed draws completes ih
  exact levels nestingLimit

end Registry

/-! ## Expressions that are around -/

/-- Coherent nodes are a stock, if there is no condition on the operators. -/
theorem Stock.of_coherent {given : List (Node K)} {next : NodeId} (coherent : Node.Coherent given)
    (older : ∀ n ∈ given, n.Older next) : Stock Registry.anyName given [] next := by
  refine ⟨?_, ?_, fun _ _ _ _ _ _ => trivial⟩
  · rw [List.append_nil]
    exact coherent
  · rw [List.append_nil]
    exact older

/-- Well-typed expressions that are coherent and older than the next identity. -/
structure Around (r : Registry K) (given : List (Node K)) (next : NodeId) : Prop where
  coherent : Node.Coherent given
  older : ∀ n ∈ given, n.Older next
  typed : ∀ n ∈ given, n.WellTyped r.Knows

/-- The hooks draw on what they are given and on captured nodes, and make complete constants. -/
structure Registry.Thrifty (captured : List (Node K)) (r : Registry K) : Prop where
  optimize : r.Draws anyName []
  completes : r.Completes
  deriv {s : Signature} {rule : Node K → List (Node K) → Recipe K (Node K) (Node K) (Node K)} :
    (r.hooks s).deriv = some rule → ∀ {wrt : Node K} {operands given : List (Node K)},
      captured ⊆ given → (∀ m ∈ operands, Node.Below given m) →
        (rule wrt operands).Thrift given Node.Below
  gradient {s : Signature} {rule : Node K → List (Node K) → Recipe K (Contribution K) Unit Unit} :
    (r.hooks s).gradient = some rule → ∀ {g : Node K} {operands given : List (Node K)},
      captured ⊆ given → (∀ m ∈ operands, Node.Below given m) → Node.Below given g →
        (rule g operands).Thrift given fun _ _ => True

theorem Registry.Thrifty.mono {captured more : List (Node K)} {r : Registry K}
    (h : r.Thrifty captured) (sub : captured ⊆ more) : r.Thrifty more where
  optimize := h.optimize
  completes := h.completes
  deriv hook _ _ _ held below := h.deriv hook (List.Subset.trans sub held) below
  gradient hook _ _ _ held below := h.gradient hook (List.Subset.trans sub held) below

namespace Around

variable {r : Registry K} {given more : List (Node K)} {next : NodeId} {n : Node K}

theorem stock (h : Around r given next) : Stock Registry.anyName given [] next :=
  .of_coherent h.coherent h.older

theorem of_stock (stock : Stock Registry.anyName given [] next)
    (typed : ∀ n ∈ given, n.WellTyped r.Knows) : Around r given next := by
  have older := stock.older
  rw [List.append_nil] at older
  exact ⟨stock.coherent_given, older, typed⟩

theorem of_below (h : Around r given next) (all : ∀ n ∈ more, Node.Below given n) :
    Around r more next where
  coherent := h.coherent.of_below all
  older n hn := by
    rcases all n hn with ⟨m, hm, below⟩
    exact (h.older m hm).of_reaches below
  typed n hn := Registry.wellTyped_of_below h.typed (all n hn)

theorem of_subset (h : Around r given next) (sub : more ⊆ given) : Around r more next :=
  h.of_below fun _ hn => .of_mem (sub hn)

theorem cons_of_below (h : Around r given next) (below : Node.Below given n) :
    Around r (n :: given) next :=
  h.of_below (List.forall_mem_cons.2 ⟨below, fun _ => .of_mem⟩)

end Around

section

variable {r : Registry K} {captured given : List (Node K)} {T : Type}

theorem make_around (thrifty : r.Thrifty captured) {c : Construction K} (complete : c.Complete)
    (draws : c.Draws Registry.anyName given) :
    Triple (fun w => Around r given w.nextId) (r.make c) (fun n w => Around r (n :: given) w.nextId)
      fun _ _ => True := by
  intro w around
  have grown := Registry.make_grows thrifty.optimize c given [] (List.nil_subset _) draws w
    around.stock
  have made := Registry.make_typed thrifty.optimize thrifty.completes c given complete draws
    around.typed w trivial
  revert grown made
  rcases (r.make c).run.run w with ⟨_ | n, w'⟩
  · exact fun _ _ => trivial
  · exact fun grown made => .of_stock grown (List.forall_mem_cons.2 ⟨made, around.typed⟩)

theorem newConstant_around {v : Literal K} (complete : v.Complete) :
    Triple (fun w => Around r given w.nextId) (Node.newConstant v)
      (fun n w => Around r (n :: given) w.nextId) fun _ _ => True :=
  fun w around => .of_stock (around.stock.cons_of_fresh rfl (by simp) nofun)
    (List.forall_mem_cons.2 ⟨.constant w.nextId complete, around.typed⟩)

/-! ## Passes -/

/-- What a pass holds besides the workspace: it stays as it is when more is around. -/
structure Holding (K T : Type) where
  holds : List (Node K) → T → Prop
  mono {given more : List (Node K)} {t : T} : given ⊆ more → holds given t → holds more t

namespace Holding

/-- A state of a pass: what it holds lies below the expressions that are around. -/
def Keeps (H : Holding K T) (r : Registry K) (given : List (Node K)) (s : Workspace K × T) : Prop :=
  Around r given s.1.nextId ∧ H.holds given s.2

variable {H : Holding K T} {ρ σ : Type} [Dialogue K ρ σ]

theorem Keeps.cons_of_below {s : Workspace K × T} {n : Node K} (h : H.Keeps r given s)
    (below : Node.Below given n) : H.Keeps r (n :: given) s :=
  ⟨h.1.cons_of_below below, H.mono (List.subset_cons_self n given) h.2⟩

/-- Requests that show nothing but what is around are answered with well-typed expressions that are
coherent with what is around. -/
def Answers (H : Holding K T) (r : Registry K) (captured : List (Node K))
    (answer : ρ → StatefulWork K T σ) : Prop :=
  ∀ request around, captured ⊆ around →
    (∀ n ∈ Dialogue.shows σ request, Node.Below around n) →
      Triple (H.Keeps r around) (answer request)
        (fun a s => ∃ more, around ⊆ more ∧ H.Keeps r (Dialogue.hands ρ a ++ more) s)
        fun _ _ => True

/-- Work on the workspace alone, which adds a node to what is around. -/
theorem keeps_within {work : Work K (Node K)}
    (h : Triple (fun w => Around r given w.nextId) work
      (fun n w => Around r (n :: given) w.nextId) fun _ _ => True) :
    Triple (H.Keeps r given) (Work.within work) (fun n => H.Keeps r (n :: given)) fun _ _ => True :=
  (h.alongside (H.holds given)).relax fun n _ keeps =>
    ⟨keeps.1, H.mono (List.subset_cons_self n given) keeps.2⟩

end Holding

variable {H : Holding K T} {ρ σ α : Type} [Dialogue K ρ σ]

/-- Carrying a recipe out keeps what is around, if the answers to requests do. -/
theorem Recipe.Thrift.keeps_run (thrifty : r.Thrifty captured) {recipe : Recipe K ρ σ α}
    {post : List (Node K) → α → Prop} (thrift : recipe.Thrift given post)
    {answer : ρ → StatefulWork K T σ} (answers : H.Answers r captured answer)
    {around : List (Node K)} (held : captured ⊆ around) (sub : given ⊆ around) :
    Triple (H.Keeps r around)
      (recipe.run (fun c => Work.within (r.make c)) answer fun e => Work.within (Work.refuse e))
      (fun a s => ∃ now more, around ⊆ more ∧ now ⊆ more ∧ post now a ∧ H.Keeps r more s)
      fun _ _ => True := by
  -- what is around grows with each node that is made or handed back
  induction recipe generalizing given around with
  | done a =>
      exact .value fun s keeps => ⟨given, around, List.Subset.refl around, sub, thrift.draws, keeps⟩
  | refuse e => exact .within fun _ => .refuse fun _ _ => trivial
  | make c next ih =>
      have made := make_around thrifty thrift.complete.1 (thrift.draws.1.mono sub)
      refine (Holding.keeps_within made).bind fun n => ?_
      refine (ih n ⟨thrift.draws.2 n, thrift.complete.2 n⟩ (List.subset_cons_of_subset n held)
        (List.cons_subset_cons n sub)).relax ?_
      intro a s hs
      rcases hs with ⟨now, more, sub', drawn, result, keeps⟩
      exact ⟨now, more, List.subset_of_cons_subset sub', drawn, result, keeps⟩
  | ask request next ih =>
      have shown := fun n hn => (thrift.draws.1 n hn).mono sub
      refine (answers request around held shown).bind fun a => ?_
      refine .of_exists fun more => .assuming fun sub' => ?_
      have held' : captured ⊆ Dialogue.hands ρ a ++ more :=
        List.subset_append_of_subset_right _ (List.Subset.trans held sub')
      have here : Dialogue.hands ρ a ++ given ⊆ Dialogue.hands ρ a ++ more :=
        List.append_subset.2 ⟨List.subset_append_left _ _,
          List.subset_append_of_subset_right _ (List.Subset.trans sub sub')⟩
      refine (ih a ⟨thrift.draws.2 a, thrift.complete a⟩ held' here).relax ?_
      intro b s hs
      rcases hs with ⟨now, later, sub'', drawn, result, keeps⟩
      exact ⟨now, later, List.Subset.trans sub' (List.append_subset.1 sub'').2, drawn, result, keeps⟩

end

/-! ## Derivatives -/

namespace Registry

variable {r : Registry K} {captured given operands : List (Node K)} {n wrt : Node K}

/-- What a pass remembers lies below what is around. -/
def remembered : Holding K (Memo K) where
  holds given memo := ∀ (id : NodeId) (m : Node K), memo[id]? = some m → Node.Below given m
  mono sub held id m found := (held id m found).mono sub

/-- A node is added to what is around, and perhaps others. -/
abbrev Hands (H : Holding K (Memo K)) (r : Registry K) (given : List (Node K)) (n : Node K)
    (s : Workspace K × Memo K) : Prop :=
  ∃ more, given ⊆ more ∧ H.Keeps r (n :: more) s

theorem remembering_answers {id : NodeId} {compute : Pass K (Node K)}
    (h : Triple (remembered.Keeps r given) compute (Hands remembered r given) fun _ _ => True) :
    Triple (remembered.Keeps r given)
      (do
        match ← Pass.known? id with
        | some known => return known
        | none =>
            let result ← compute
            Pass.remember id result
            return result)
      (Hands remembered r given) fun _ _ => True := by
  refine (Pass.known?_triple id).bind fun known? => ?_
  cases known? with
  | some m =>
      refine .value fun s hs => ⟨given, List.Subset.refl given, ?_⟩
      exact hs.1.cons_of_below (hs.1.2 id m hs.2.symm)
  | none =>
      refine (h.strengthen fun s hs => hs.1).bind fun m => ?_
      refine Triple.bind (m := fun _ => Hands remembered r given m) (Pass.remember_triple ?_)
        fun _ => .value fun _ hs => hs
      intro s hs
      rcases hs with ⟨more, sub, around, held⟩
      refine ⟨more, sub, around, fun i x found => ?_⟩
      rw [Std.HashMap.getElem?_insert] at found
      split at found
      · exact .of_mem (Option.some.inj found ▸ List.mem_cons_self)
      · exact held i x found

theorem differentiate_answers (thrifty : r.Thrifty given) {answer : Node K → Pass K (Node K)}
    (answers : remembered.Answers r given answer) {id : NodeId} {s : Signature}
    (below : ∀ m ∈ operands, Node.Below given m) :
    Triple (remembered.Keeps r given) (r.differentiate wrt id s operands answer)
      (Hands remembered r given) fun _ _ => True := by
  rw [differentiate]
  cases hook : (r.hooks s).deriv with
  | none => exact .within fun _ => .refuse fun _ _ => trivial
  | some deriv =>
      have thrift : (deriv wrt operands).Thrift given Node.Below :=
        thrifty.deriv hook (List.Subset.refl given) below
      refine Triple.bind (m := fun _ => remembered.Keeps r given)
        (.within fun _ => .record fun _ hs => hs) fun _ => ?_
      refine (thrift.keeps_run thrifty answers (List.Subset.refl given)
        (List.Subset.refl given)).bind fun m => ?_
      split
      · exact .within fun _ => .refuse fun _ _ => trivial
      · refine .value fun s hs => ?_
        rcases hs with ⟨now, more, sub, drawn, below, keeps⟩
        exact ⟨more, sub, keeps.cons_of_below (below.mono drawn)⟩

variable [Arithmetic K]

theorem deriveWith_answers (thrifty : r.Thrifty captured) {again : Node K → Pass K (Node K)}
    (others : remembered.Answers r captured again) :
    remembered.Answers r captured (r.deriveWith wrt again) := by
  intro n around held shown
  have below := shown n List.mem_cons_self
  clear shown
  induction n using Node.induct generalizing around with
  | constant id v =>
      rw [deriveWith]
      refine remembering_answers ((Holding.keeps_within
        (newConstant_around (Literal.hasShape_zero v.shape).complete)).relax ?_)
      exact fun m s keeps => ⟨around, List.Subset.refl around, keeps⟩
  | leaf id name s =>
      rw [deriveWith]
      have complete : (if id = wrt.id then Literal.one s else .zero s : Literal K).Complete := by
        split
        · exact (Literal.hasShape_one s).complete
        · exact (Literal.hasShape_zero s).complete
      refine remembering_answers ((Holding.keeps_within (newConstant_around complete)).relax ?_)
      exact fun m s keeps => ⟨around, List.Subset.refl around, keeps⟩
  | application id s operands ih =>
      rw [deriveWith]
      refine remembering_answers (differentiate_answers (thrifty.mono held) ?_
        fun m hm => below.of_reaches (.of_mem_operands hm))
      -- the operands are still around when the hook asks for them
      intro k now held' shown
      rcases answerDerivative_cases r wrt again operands k with ⟨m, hm, same⟩ | same
      · rw [same]
        exact ih m hm now (List.Subset.trans held held')
          ((below.of_reaches (.of_mem_operands hm)).mono held')
      · rw [same]
        exact others k now (List.Subset.trans held held') shown

theorem deriveNext_answers (thrifty : r.Thrifty captured) (wrt : Node K) :
    remembered.Answers r captured (r.deriveNext wrt) := by
  have levels (depth : Nat) : remembered.Answers r captured (r.deriveWithin wrt depth) := by
    induction depth with
    | zero => exact fun _ _ _ _ => .giveUp fun _ _ => trivial
    | succ depth ih => exact deriveWith_answers thrifty ih
  exact levels nestingLimit

variable [Numeral K]

/-- A derivative is well typed and coherent with the expressions it is made of. -/
theorem derivative_issues (thrifty : r.Thrifty captured) (held : captured ⊆ given)
    (below : Node.Below given n) :
    Triple (fun w => Around r given w.nextId) (r.derivative n wrt)
      (fun m w => Around r (m :: given) w.nextId) fun _ _ => True := by
  rw [derivative]
  refine Triple.bind (m := fun _ w => Around r given w.nextId)
    (.ofExcept (fun _ _ _ around => around) fun _ _ _ _ => trivial) fun _ => ?_
  have derived := deriveNext_answers thrifty wrt n given held
    (List.forall_mem_singleton.2 below)
  refine .starting (derived.weaken ?_ ?_ fun _ _ _ => trivial)
  · intro s hs
    rcases s with ⟨w, memo⟩
    rcases hs with ⟨around, rfl⟩
    refine ⟨around, fun id m found => ?_⟩
    simp at found
  · intro m s hs
    rcases hs with ⟨more, sub, around, _⟩
    exact around.of_subset (List.cons_subset_cons m sub)

end Registry

/-! ## Gradients -/

namespace Registry

variable {r : Registry K} {captured given deps : List (Node K)} {e g seed : Node K}
  {relevant : Std.HashSet NodeId}

/-- What is pending and what has reached leaves lies below what is around. -/
def flowing : Holding K (Flow K) where
  holds given flow :=
    (∀ (id : NodeId) (g : Node K), flow.pending[id]? = some g → Node.Below given g) ∧
      ∀ leaf g, flow.gradients.get? leaf = some g → Node.Below given g
  mono sub held := ⟨fun id g found => (held.1 id g found).mono sub,
    fun leaf g found => (held.2 leaf g found).mono sub⟩

theorem flowing_insert_pending {flow : Flow K} (held : flowing.holds given flow) (id : NodeId)
    (below : Node.Below given g) :
    flowing.holds given { flow with pending := flow.pending.insert id g } := by
  refine ⟨fun i x found => ?_, held.2⟩
  rw [Std.HashMap.getElem?_insert] at found
  split at found
  · exact Option.some.inj found ▸ below
  · exact held.1 i x found

theorem flowing_insert_gradient {flow : Flow K} (held : flowing.holds given flow) (leaf : Node K)
    (below : Node.Below given g) :
    flowing.holds given { flow with gradients := flow.gradients.insert leaf g } := by
  refine ⟨held.1, fun x y found => ?_⟩
  rw [Gradients.get?_insert] at found
  split at found
  · exact Option.some.inj found ▸ below
  · exact held.2 x y found

/-- A sum is below what is around, to which it may have been added. -/
theorem accumulate_around (thrifty : r.Thrifty captured) {total? : Option (Node K)}
    (total : ∀ total ∈ total?, Node.Below given total) (below : Node.Below given g) :
    Triple (fun w => Around r given w.nextId) (r.accumulate total? g)
      (fun sum w => Around r (sum :: given) w.nextId) fun _ _ => True := by
  cases total? with
  | none => exact .value fun w around => around.cons_of_below below
  | some t =>
      have operands : ∀ m ∈ [t, g], Node.Below given m :=
        List.forall_mem_cons.2 ⟨total t rfl, List.forall_mem_singleton.2 below⟩
      exact make_around thrifty (c := .apply "+" [t, g]) trivial ⟨trivial, operands⟩

/-- A new total is kept, be it for a leaf or for an application. -/
theorem keepTotal_issues (keep : Flow K → Node K → Flow K) (thrifty : r.Thrifty captured)
    {total? : Option (Node K)} (total : ∀ total ∈ total?, Node.Below given total)
    (below : Node.Below given g) {flow : Flow K}
    (kept : ∀ sum, flowing.holds (sum :: given) (keep flow sum)) :
    Triple (fun s => Around r given s.1.nextId ∧ s.2 = flow)
      (do
        let sum ← Work.within (r.accumulate total? g)
        modify fun (w, flow) => (w, keep flow sum))
      (fun _ s => ∃ more, given ⊆ more ∧ flowing.Keeps r more s) fun _ _ => True := by
  have sums := accumulate_around thrifty total below
  refine (sums.alongside (· = flow)).bind fun sum => .update fun s hs => ?_
  rcases s with ⟨w, _⟩
  rcases hs with ⟨around, rfl⟩
  exact ⟨sum :: given, List.subset_cons_self sum given, around, kept sum⟩

variable [Arithmetic K] [Numeral K]

theorem contribute_answers (thrifty : r.Thrifty captured) (relevant : Std.HashSet NodeId) :
    flowing.Answers r captured (r.contribute relevant) := by
  intro c around held shown
  have below := shown c.gradient (List.mem_cons_of_mem c.operand List.mem_cons_self)
  rw [contribute]
  dsimp only
  split
  · exact Triple.bind (m := fun _ _ => False) (.within fun _ => .refuse fun _ _ => trivial)
      fun _ _ => False.elim
  refine Triple.bind (m := fun _ => flowing.Keeps r around)
    (.within fun _ => .record fun _ hs => hs) fun _ => ?_
  split
  · refine Triple.bind (m := fun (now : Workspace K × Flow K) s => flowing.holds around now.2 ∧
      (Around r around s.1.nextId ∧ s.2 = now.2)) (.read fun s hs => ⟨hs.2, hs.1, rfl⟩) fun now => ?_
    refine .assuming fun heldNow => ?_
    rcases now with ⟨_, flow⟩
    dsimp only
    split
    · let keep (flow : Flow K) (sum : Node K) : Flow K :=
        { flow with gradients := flow.gradients.insert c.operand sum }
      refine keepTotal_issues keep thrifty (heldNow.2 c.operand) below fun sum => ?_
      exact flowing_insert_gradient (flowing.mono (List.subset_cons_self sum around) heldNow) _
        (.of_mem List.mem_cons_self)
    · let keep (flow : Flow K) (sum : Node K) : Flow K :=
        { flow with pending := flow.pending.insert c.operand.id sum }
      refine keepTotal_issues keep thrifty (heldNow.1 c.operand.id) below fun sum => ?_
      exact flowing_insert_pending (flowing.mono (List.subset_cons_self sum around) heldNow) _
        (.of_mem List.mem_cons_self)
  · exact .value fun s keeps => ⟨around, List.Subset.refl around, keeps⟩

/-- Visiting a node makes more expressions, and leaves those that are around. -/
theorem propagate_issues (thrifty : r.Thrifty captured) (held : captured ⊆ given) {n : Node K}
    (below : Node.Below given n) :
    Triple (flowing.Keeps r given) (r.propagate relevant n)
      (fun _ s => ∃ more, given ⊆ more ∧ flowing.Keeps r more s) fun _ _ => True := by
  have same (s : Workspace K × Flow K) (keeps : flowing.Keeps r given s) :
      ∃ more, given ⊆ more ∧ flowing.Keeps r more s := ⟨given, List.Subset.refl given, keeps⟩
  cases n with
  | constant | leaf => exact .value same
  | application id s operands =>
      rw [propagate]
      refine Triple.bind (m := fun total? s => (∀ total ∈ total?, Node.Below given total) ∧
        flowing.Keeps r given s) (.take fun s hs => ?_) fun total? => .assuming fun total => ?_
      · refine ⟨fun g found => hs.2.1 id g found, hs.1, fun i g found => ?_, hs.2.2⟩
        rw [Std.HashMap.getElem?_erase] at found
        split at found
        · exact absurd found nofun
        · exact hs.2.1 i g found
      cases total? with
      | none => exact .value same
      | some incoming =>
          dsimp only
          split
          · exact .within fun _ => .record fun _ keeps => same _ keeps
          split
          · exact .within fun _ => .refuse fun _ _ => trivial
          · rename_i gradient hook
            have thrift := thrifty.gradient hook held
              (fun m hm => below.of_reaches (.of_mem_operands hm)) (total incoming rfl)
            refine Triple.bind (m := fun _ => flowing.Keeps r given)
              (.within fun _ => .record fun _ keeps => keeps) fun _ => ?_
            refine (thrift.keeps_run thrifty (contribute_answers thrifty relevant) held
              (List.Subset.refl given)).relax ?_
            intro _ s hs
            rcases hs with ⟨_, more, sub, _, _, keeps⟩
            exact ⟨more, sub, keeps⟩

theorem sweep_issues (thrifty : r.Thrifty captured) (held : captured ⊆ given) {nodes : List (Node K)}
    (below : ∀ n ∈ nodes, Node.Below given n) :
    Triple (flowing.Keeps r given) (nodes.forM (r.propagate relevant))
      (fun _ s => ∃ more, given ⊆ more ∧ flowing.Keeps r more s) fun _ _ => True := by
  induction nodes generalizing given with
  | nil => exact .value fun s keeps => ⟨given, List.Subset.refl given, keeps⟩
  | cons n rest ih =>
      rw [List.forall_mem_cons] at below
      rw [List.forM]
      refine (propagate_issues thrifty held below.1).bind fun _ => ?_
      refine .of_exists fun more => .assuming fun sub => ?_
      refine (ih (List.Subset.trans held sub) fun m hm => (below.2 m hm).mono sub).relax ?_
      intro _ s hs
      rcases hs with ⟨later, sub', keeps⟩
      exact ⟨later, List.Subset.trans sub sub', keeps⟩

/-- Gradients are well typed and coherent with the expressions they are made of. -/
theorem backpropFrom_issues (thrifty : r.Thrifty captured) (held : captured ⊆ given)
    (root : Node.Below given e) (upstream : Node.Below given seed) :
    Triple (fun w => Around r given w.nextId) (r.backpropFrom e deps seed)
      (fun gradients w => Around r (deps.filterMap gradients.get? ++ given) w.nextId)
      fun _ _ => True := by
  suffices sweeps : Node.Coherent [e] → Triple _ _ _ _ from fun w around =>
    sweeps (around.coherent.of_below (List.forall_mem_singleton.2 root)) w around
  intro alone
  rw [backpropFrom]
  refine Triple.bind (m := fun _ w => Around r given w.nextId)
    (.ofExcept (fun _ _ _ around => around) fun _ _ _ _ => trivial) fun _ => ?_
  dsimp only
  split
  · exact Triple.bind (m := fun _ _ => False) (.refuse fun _ _ => trivial) fun _ _ => False.elim
  have first := contribute_answers thrifty (relevantTo e deps) ⟨e, seed⟩ given held
    (List.forall_mem_cons.2 ⟨root, List.forall_mem_singleton.2 upstream⟩)
  refine .starting (Triple.bind (first.strengthen ?_) fun _ => ?_)
  · intro s hs
    rcases s with ⟨w, flow⟩
    rcases hs with ⟨around, rfl⟩
    refine ⟨around, fun id g found => ?_, fun leaf g found => ?_⟩
    · simp at found
    · simp [Gradients.get?_empty] at found
  refine .of_exists fun now => .assuming fun sub => ?_
  -- the nodes that are visited lie below the root
  have visited : ∀ n ∈ e.postOrder.reverse, Node.Below now n := by
    intro n hn
    rw [List.mem_reverse, Node.mem_postOrder_iff alone] at hn
    exact (root.of_reaches hn).mono sub
  refine (sweep_issues thrifty (List.Subset.trans held sub) visited).bind fun _ => ?_
  intro s hs
  rcases hs with ⟨more, sub', around, _, reached⟩
  refine around.of_below (List.forall_mem_append.2 ⟨fun g hg => ?_, fun n hn => ?_⟩)
  · rcases List.mem_filterMap.1 hg with ⟨leaf, _, found⟩
    exact reached leaf g found
  · exact .of_mem (sub' (sub hn))

end Registry

/-! ## Whatever can be made -/

section

variable [Arithmetic K] [Numeral K] {r : Registry K} {captured es es' : List (Node K)}
  {w w' : Workspace K}

/-- Expressions that are made one after the other of expressions at hand: nodes that are built over
them, derivatives and gradients, derivatives of these, and so on. -/
inductive Registry.Issues (r : Registry K) (w : Workspace K) (es : List (Node K)) :
    Workspace K → List (Node K) → Prop where
  | start : r.Issues w es w es
  | construction {w' w'' : Workspace K} {es' : List (Node K)} {c : Construction K} {n : Node K} :
      r.Issues w es w' es' → c.Complete → c.Draws Registry.anyName es' →
      (r.make c).runIn w' = (.ok n, w'') → r.Issues w es w'' (n :: es')
  | derivative {w' w'' : Workspace K} {es' : List (Node K)} {e x m : Node K} :
      r.Issues w es w' es' → Node.Below es' e → (r.derivative e x).runIn w' = (.ok m, w'') →
      r.Issues w es w'' (m :: es')
  | gradients {w' w'' : Workspace K} {es' deps : List (Node K)} {e seed : Node K}
      {gradients : Gradients K} :
      r.Issues w es w' es' → Node.Below es' e → Node.Below es' seed →
      (r.backpropFrom e deps seed).runIn w' = (.ok gradients, w'') →
      r.Issues w es w'' (deps.filterMap gradients.get? ++ es')

theorem Registry.Issues.around (issues : r.Issues w es w' es') (thrifty : r.Thrifty captured)
    (around : Around r (captured ++ es) w.nextId) : Around r (captured ++ es') w'.nextId := by
  have held (later : List (Node K)) : captured ⊆ captured ++ later :=
    List.subset_append_left captured later
  have known (later : List (Node K)) : later ⊆ captured ++ later :=
    List.subset_append_right captured later
  induction issues with
  | start => exact around
  | @construction now after later c n _ complete draws run ih =>
      have made := (make_around thrifty complete (draws.mono (known later))).of_runIn_eq_ok ih run
      exact made.of_subset List.perm_middle.subset
  | @derivative now after later e x m _ below run ih =>
      have made := (derivative_issues thrifty (held later) (below.mono (known later))).of_runIn_eq_ok
        ih run
      exact made.of_subset List.perm_middle.subset
  | @gradients now after later deps e seed gradients _ root upstream run ih =>
      have made := (backpropFrom_issues thrifty (held later) (root.mono (known later))
        (upstream.mono (known later))).of_runIn_eq_ok ih run
      refine made.of_subset (List.append_subset.2 ⟨?_, List.append_subset.2 ⟨?_, ?_⟩⟩)
      · exact List.subset_append_of_subset_right _ (held later)
      · exact List.subset_append_left _ _
      · exact List.subset_append_of_subset_right _ (known later)

end

end SymbolicLinalg
