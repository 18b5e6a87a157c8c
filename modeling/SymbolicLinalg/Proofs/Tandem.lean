import Mathlib.Order.Basic
import SymbolicLinalg.Proofs.Accord
import SymbolicLinalg.Proofs.Growth

/-!
# Tandem — one piece of work done twice

The same work is done in two runs that have made nodes of their own.  What corresponds in the one run
to what in the other is known in a *world*, which grows as the runs go on.  `Tandem` says of two
pieces of work that from corresponding states both come to corresponding values, in a later world, or
both are given up for one fault.

* `Tandem`: work that goes alike in both runs, with a rule for each step;
* `Frame`: worlds in which nodes correspond, and new nodes come to do so;
* `Recipe.Accords.tandem`: recipes that accord in all worlds to come;
* `Registry.make_tandem`: construction, if the hooks do not tell corresponding nodes apart.
-/

namespace SymbolicLinalg

variable {S S' T T' W α α' β β' : Type} [Preorder W]

/-- Both outcomes are values that correspond in a later world, or both are the same fault. -/
inductive Concurs (I : W → S → S' → Prop) (rel : W → α → α' → Prop) (u : W) :
    Except Fault α × S → Except Fault α' × S' → Prop where
  | value {v : W} {a : α} {a' : α'} {s : S} {s' : S'} :
      u ≤ v → rel v a a' → I v s s' → Concurs I rel u (.ok a, s) (.ok a', s')
  | fault {v : W} {f : Fault} {s : S} {s' : S'} :
      u ≤ v → I v s s' → Concurs I rel u (.error f, s) (.error f, s')

/-- From states that correspond in the world, both pieces of work go alike. -/
def Tandem (I : W → S → S' → Prop) (rel : W → α → α' → Prop) (u : W)
    (work : ExceptT Fault (StateM S) α) (work' : ExceptT Fault (StateM S') α') : Prop :=
  ∀ s s', I u s s' → Concurs I rel u (work.run.run s) (work'.run.run s')

theorem Concurs.of_le {I : W → S → S' → Prop} {rel : W → α → α' → Prop} {u v : W}
    {outcome : Except Fault α × S} {outcome' : Except Fault α' × S'} (later : u ≤ v)
    (h : Concurs I rel v outcome outcome') : Concurs I rel u outcome outcome' := by
  cases h with
  | value after related states => exact .value (later.trans after) related states
  | fault after states => exact .fault (later.trans after) states

namespace Tandem

variable {I : W → S → S' → Prop} {rel : W → α → α' → Prop} {rel' : W → β → β' → Prop} {u : W}
  {work : ExceptT Fault (StateM S) α} {work' : ExceptT Fault (StateM S') α'}

/-! ## Rules -/

theorem value {a : α} {a' : α'} (related : rel u a a') :
    Tandem I rel u (pure a : ExceptT Fault (StateM S) α)
      (pure a' : ExceptT Fault (StateM S') α') :=
  fun _ _ states => .value le_rfl related states

theorem giveUp (f : Fault) :
    Tandem I rel u (throw f : ExceptT Fault (StateM S) α)
      (throw f : ExceptT Fault (StateM S') α') :=
  fun _ _ states => .fault le_rfl states

theorem bind {next : α → ExceptT Fault (StateM S) β} {next' : α' → ExceptT Fault (StateM S') β'}
    (h : Tandem I rel u work work')
    (k : ∀ v a a', u ≤ v → rel v a a' → Tandem I rel' v (next a) (next' a')) :
    Tandem I rel' u (work >>= next) (work' >>= next') := by
  intro s s' states
  have first := h s s' states
  rw [ExceptT.run_bind, StateT.run_bind, ExceptT.run_bind, StateT.run_bind]
  revert first
  rcases work.run.run s with ⟨outcome, t⟩
  rcases work'.run.run s' with ⟨outcome', t'⟩
  rintro (⟨later, related, states⟩ | ⟨later, states⟩)
  · exact (k _ _ _ later related t t' states).of_le later
  · exact .fault later states

theorem read : Tandem I I u (get : ExceptT Fault (StateM S) S) (get : ExceptT Fault (StateM S') S') :=
  fun _ _ states => .value le_rfl states states

theorem update {f : S → S} {f' : S' → S'} (h : ∀ s s', I u s s' → I u (f s) (f' s')) :
    Tandem I (fun _ _ _ => True) u (modify f : ExceptT Fault (StateM S) Unit)
      (modify f' : ExceptT Fault (StateM S') Unit) :=
  fun s s' states => .value le_rfl trivial (h s s' states)

theorem take {f : S → α × S} {f' : S' → α' × S'}
    (h : ∀ s s', I u s s' → ∃ v, u ≤ v ∧ rel v (f s).1 (f' s').1 ∧ I v (f s).2 (f' s').2) :
    Tandem I rel u (modifyGet f : ExceptT Fault (StateM S) α)
      (modifyGet f' : ExceptT Fault (StateM S') α') := by
  intro s s' states
  rcases h s s' states with ⟨v, later, related, states⟩
  exact .value later related states

theorem ite {p p' : Prop} [Decidable p] [Decidable p'] {other : ExceptT Fault (StateM S) α}
    {other' : ExceptT Fault (StateM S') α'} (same : p ↔ p')
    (first : p → Tandem I rel u work work') (second : ¬ p → Tandem I rel u other other') :
    Tandem I rel u (if p then work else other) (if p' then work' else other') := by
  by_cases holds : p
  · rw [if_pos holds, if_pos (same.1 holds)]
    exact first holds
  · rw [if_neg holds, if_neg fun holds' => holds (same.2 holds')]
    exact second holds

/-! ## Workspaces -/

section

variable {K : Type} {J : W → Workspace K → Workspace K → Prop} {work work' : Work K α}

theorem refuse (e : Error) :
    Tandem J rel u (Work.refuse e : Work K α) (Work.refuse e : Work K α') :=
  giveUp (.error e)

/-- One check is made in both runs. -/
theorem ofExcept {P : W → α → α → Prop} {x : Except Error α} (h : ∀ a, x = .ok a → P u a a) :
    Tandem J P u (Work.ofExcept x : Work K α) (Work.ofExcept x) := by
  cases x with
  | error e => exact refuse e
  | ok a => exact value (h a rfl)

/-- Work inside larger states leaves the rest of the states as it is. -/
theorem within {R : W → T → T' → Prop} {work : Work K α} {work' : Work K α'}
    (mono : ∀ u v t t', u ≤ v → R u t t' → R v t t') (h : Tandem J rel u work work') :
    Tandem (fun v (s : Workspace K × T) (s' : Workspace K × T') => J v s.1 s'.1 ∧ R v s.2 s'.2) rel u
      (Work.within work) (Work.within work') := by
  rintro ⟨w, t⟩ ⟨w', t'⟩ ⟨workspaces, rest⟩
  have done := h w w' workspaces
  change Concurs _ rel u ((Work.within work : StatefulWork K T α) (w, t))
    ((Work.within work' : StatefulWork K T' α') (w', t'))
  rw [Work.within_apply, Work.within_apply, Work.runIn, Work.runIn]
  revert done
  rcases work.run.run w with ⟨outcome, v⟩
  rcases work'.run.run w' with ⟨outcome', v'⟩
  rintro (⟨later, related, workspaces⟩ | ⟨later, workspaces⟩)
  · exact .value later related ⟨workspaces, mono _ _ t t' later rest⟩
  · exact .fault later ⟨workspaces, mono _ _ t t' later rest⟩

end

end Tandem

/-! ## Recipes -/

/-- Recipes that accord in every world to come are carried out alike. -/
theorem Recipe.Accords.tandem {K ρ σ : Type} {c : W → Correspondence K ρ σ}
    {rel : W → α → α' → Prop} {I : W → S → S' → Prop} {u : W} {recipe : Recipe K ρ σ α}
    {recipe' : Recipe K ρ σ α'} {make : Construction K → ExceptT Fault (StateM S) (Node K)}
    {make' : Construction K → ExceptT Fault (StateM S') (Node K)}
    {answer : ρ → ExceptT Fault (StateM S) σ} {answer' : ρ → ExceptT Fault (StateM S') σ}
    {refuse : Error → ExceptT Fault (StateM S) α} {refuse' : Error → ExceptT Fault (StateM S') α'}
    (h : ∀ v, u ≤ v → recipe.Accords (c v) (rel v) recipe')
    (nodes : ∀ v w n m, v ≤ w → (c v).nodes n m → (c w).nodes n m)
    (replies : ∀ v w a a', v ≤ w → (c v).answered a a' → (c w).answered a a')
    (makes : ∀ v k k', u ≤ v → k.Like (c v).nodes k' →
      Tandem I (fun w => (c w).nodes) v (make k) (make' k'))
    (answers : ∀ v request request', u ≤ v → (c v).asked request request' →
      Tandem I (fun w => (c w).answered) v (answer request) (answer' request'))
    (refuses : ∀ v e, u ≤ v → Tandem I rel v (refuse e) (refuse' e)) :
    Tandem I rel u (recipe.run make answer refuse) (recipe'.run make' answer' refuse') := by
  induction recipe generalizing recipe' u with
  | done a =>
      rcases h u le_rfl with related | _
      exact .value related
  | refuse e =>
      rcases h u le_rfl with _ | _
      exact refuses u e le_rfl
  | make k next ih =>
      rcases h u le_rfl with _ | _ | ⟨like, _⟩ | _
      refine (makes u k _ le_rfl like).bind fun v n m later related => ?_
      -- in later worlds the recipes start alike as well, so they also go on alike
      refine ih n (fun w after => ?_) (fun w k k' after => makes w k k' (later.trans after))
        (fun w q q' after => answers w q q' (later.trans after))
        fun w e after => refuses w e (later.trans after)
      rcases h w (later.trans after) with _ | _ | ⟨_, goesOn⟩ | _
      exact goesOn n m (nodes v w n m after related)
  | ask request next ih =>
      rcases h u le_rfl with _ | _ | _ | ⟨asked, _⟩
      refine (answers u request _ le_rfl asked).bind fun v a a' later related => ?_
      refine ih a (fun w after => ?_) (fun w k k' after => makes w k k' (later.trans after))
        (fun w q q' after => answers w q q' (later.trans after))
        fun w e after => refuses w e (later.trans after)
      rcases h w (later.trans after) with _ | _ | _ | ⟨_, goesOn⟩
      exact goesOn a a' (replies v w a a' after related)

/-! ## Construction -/

/-- Worlds of two runs: which nodes correspond, and which identities are next.  When the next
identities are handed out, the nodes that are made with them correspond. -/
structure Frame (K W : Type) [Preorder W] where
  nodes : W → Node K → Node K → Prop
  mono {u v : W} {n m : Node K} : u ≤ v → nodes u n m → nodes v n m
  resembles (u : W) : Node.Resembles (nodes u)
  next : W → NodeId → NodeId → Prop
  fresh {u : W} {i j : NodeId} : next u i j → ∃ v, u ≤ v ∧ next v (i + 1) (j + 1) ∧
    (∀ x, nodes v (.constant i x) (.constant j x)) ∧
    ∀ s ns ms, List.Forall₂ (nodes u) ns ms → nodes v (.application i s ns) (.application j s ms)

namespace Frame

variable {K : Type} (F : Frame K W)

/-- The workspaces stand where the world says. -/
def Stands (u : W) (w w' : Workspace K) : Prop :=
  F.next u w.nextId w'.nextId

/-- Hooks that simplify do the same with operands that correspond. -/
def Blind (r : Registry K) : Prop :=
  ∀ d ∈ r.definitions, ∀ optimize, d.hooks.optimize = some optimize →
    ∀ u ns ms, List.Forall₂ (F.nodes u) ns ms →
      (optimize ns).Accords (.building (F.nodes u)) (Option.Rel (F.nodes u)) (optimize ms)

variable {F} {u : W} {ns ms : List (Node K)} {d : Definition K} {r : Registry K}

theorem all_mono {v : W} (later : u ≤ v) (h : List.Forall₂ (F.nodes u) ns ms) :
    List.Forall₂ (F.nodes v) ns ms :=
  h.imp fun _ _ => F.mono later

theorem record_tandem (e e' : Event K) :
    Tandem F.Stands (fun _ _ _ => True) u (Work.record e) (Work.record e') :=
  .update fun _ _ stands => stands

theorem newConstant_tandem (v : Literal K) :
    Tandem F.Stands F.nodes u (Node.newConstant v) (Node.newConstant v) := by
  intro w w' stands
  rcases F.fresh stands with ⟨later, after, stands, constants, _⟩
  exact .value after (constants v) stands

theorem newApplication_tandem (s : Signature) (operands : List.Forall₂ (F.nodes u) ns ms) :
    Tandem F.Stands F.nodes u (Node.newApplication s ns) (Node.newApplication s ms) := by
  intro w w' stands
  rcases F.fresh stands with ⟨later, after, stands, _, applications⟩
  exact .value after (applications s ns ms operands) stands

/-- Both ways to carry out constructions go alike, in all worlds. -/
def Makes (F : Frame K W) (make make' : Construction K → Work K (Node K)) : Prop :=
  ∀ u k k', k.Like (F.nodes u) k' → Tandem F.Stands F.nodes u (make k) (make' k')

variable {make make' : Construction K → Work K (Node K)}

theorem Makes.follow_tandem (makes : F.Makes make make') {P : W → α → α' → Prop}
    {rule : Rule K α} {rule' : Rule K α'}
    (accords : ∀ v, u ≤ v → rule.Accords (.building (F.nodes v)) (P v) rule') :
    Tandem F.Stands P u (Registry.follow make rule) (Registry.follow make' rule') :=
  Recipe.Accords.tandem accords (fun _ _ _ _ => F.mono) (fun _ _ a => a.elim)
    (fun v k k' _ => makes v k k') (fun _ request => request.elim) fun _ e _ => .refuse e

theorem settle_tandem (operands : List.Forall₂ (F.nodes u) ns ms)
    {simplified? simplified?' : Option (Node K)}
    (related : Option.Rel (F.nodes u) simplified? simplified?') :
    Tandem F.Stands F.nodes u (Registry.settle d ns simplified?)
      (Registry.settle d ms simplified?') := by
  cases related with
  | none => exact newApplication_tandem d.signature operands
  | @some n m simplified =>
      have same := (F.resembles u simplified).shape
      refine Tandem.ite (by rw [same]) (fun _ => ?_) fun _ => ?_
      · rw [same]
        exact .refuse _
      · exact (record_tandem _ _).bind fun v _ _ later _ => .value (F.mono later simplified)

theorem Makes.buildWith_tandem (makes : F.Makes make make')
    (blind : ∀ optimize, d.hooks.optimize = some optimize →
      ∀ u ns ms, List.Forall₂ (F.nodes u) ns ms →
        (optimize ns).Accords (.building (F.nodes u)) (Option.Rel (F.nodes u)) (optimize ms))
    (operands : List.Forall₂ (F.nodes u) ns ms) :
    Tandem F.Stands F.nodes u (Registry.buildWith make d ns) (Registry.buildWith make' d ms) := by
  have simplified (v : W) (later : u ≤ v) :
      Tandem F.Stands (fun w => Option.Rel (F.nodes w)) v (Registry.simplify? make d ns)
        (Registry.simplify? make' d ms) := by
    rw [Registry.simplify?, Registry.simplify?]
    cases hook : d.hooks.optimize with
    | none => exact .value .none
    | some optimize =>
        exact makes.follow_tandem fun w after =>
          blind optimize hook w ns ms (all_mono (later.trans after) operands)
  rw [Registry.buildWith, Registry.buildWith,
    Registry.checkOperands_congr ((F.resembles u).shapes operands)]
  refine (Tandem.ofExcept (P := fun _ _ _ => True) fun _ _ => trivial).bind
    fun v _ _ later _ => ?_
  refine (simplified v later).bind fun w _ _ after related => ?_
  exact settle_tandem (all_mono (later.trans after) operands) related

/-- The operator is found once, since the operands have the same shapes. -/
theorem Makes.resolved_tandem (makes : F.Makes make make') (blind : F.Blind r)
    {found : Except Error (Definition K)} (mem : ∀ d, found = .ok d → d ∈ r.definitions)
    (operands : List.Forall₂ (F.nodes u) ns ms) :
    Tandem F.Stands F.nodes u
      (do
        let d ← Work.ofExcept found
        Registry.buildWith make d ns)
      (do
        let d ← Work.ofExcept found
        Registry.buildWith make' d ms) := by
  refine (Tandem.ofExcept (P := fun _ d d' => d' = d ∧ d ∈ r.definitions)
    fun d ok => ⟨rfl, mem d ok⟩).bind fun v d d' later same => ?_
  obtain ⟨rfl, hd⟩ := same
  exact makes.buildWith_tandem (blind _ hd) (all_mono later operands)

theorem makeWithin_tandem (blind : F.Blind r) (depth : Nat) :
    F.Makes (r.makeWithin depth) (r.makeWithin depth) := by
  induction depth with
  | zero => exact fun _ _ _ _ => .giveUp .nesting
  | succ depth ih =>
      intro u k k' like
      cases like with
      | constant v => exact newConstant_tandem v
      | apply name operands =>
          rw [Registry.makeWithin, Registry.makeWithin, Registry.makeWith, Registry.makeWith,
            (F.resembles u).shapes operands]
          exact ih.resolved_tandem blind (fun d ok => (Registry.mem_of_resolve_eq_ok ok).1) operands
      | applyFor result name operands =>
          rw [Registry.makeWithin, Registry.makeWithin, Registry.makeWith, Registry.makeWith,
            (F.resembles u).shapes operands]
          exact ih.resolved_tandem blind (fun d ok => (Registry.mem_of_resolveAs_eq_ok ok).1)
            operands

theorem make_tandem (blind : F.Blind r) : F.Makes r.make r.make :=
  makeWithin_tandem blind nestingLimit

end Frame

end SymbolicLinalg
