import SymbolicLinalg.Proofs.Routing
import SymbolicLinalg.Proofs.Tandem

/-!
# Retracing — work that leaves out part of other work

One run does everything that another one does, and more.  Where the longer run comes to a value, so
does the shorter one, which may get by where the longer one is given up.  What they make corresponds
in a world, as in `Tandem`.

* `Retraced`: wherever the first piece of work comes to a value, so does the second;
* `Retraced.alone`: what the first run does alone;
* `Recipe.Accords.retraced`: recipes in accord, when one run does more about their requests.
-/

namespace SymbolicLinalg

variable {S S' T T' W α α' β β' : Type} [Preorder W]

/-- From states that correspond in the world, the second piece of work comes to a value if the first
one does, and the values correspond in a later world. -/
def Retraced (I : W → S → S' → Prop) (rel : W → α → α' → Prop) (u : W)
    (work : ExceptT Fault (StateM S) α) (work' : ExceptT Fault (StateM S') α') : Prop :=
  ∀ s s', I u s s' → ∀ a t, work.run.run s = (.ok a, t) →
    ∃ v a' t', work'.run.run s' = (.ok a', t') ∧ u ≤ v ∧ rel v a a' ∧ I v t t'

section

variable {I : W → S → S' → Prop} {rel : W → α → α' → Prop} {rel' : W → β → β' → Prop} {u : W}
  {work : ExceptT Fault (StateM S) α} {work' : ExceptT Fault (StateM S') α'}

theorem Tandem.retraced (h : Tandem I rel u work work') : Retraced I rel u work work' := by
  intro s s' states a t run
  have done := h s s' states
  rw [run] at done
  rcases run' : work'.run.run s' with ⟨outcome', t'⟩
  rw [run'] at done
  cases done with
  | value later related states => exact ⟨_, _, _, rfl, later, related, states⟩

namespace Retraced

/-! ## Rules -/

theorem value {a : α} {a' : α'} (related : rel u a a') :
    Retraced I rel u (pure a : ExceptT Fault (StateM S) α)
      (pure a' : ExceptT Fault (StateM S') α') :=
  (Tandem.value related).retraced

/-- Where the first run is given up, nothing is asked of the second. -/
theorem giveUp {f : Fault} : Retraced I rel u (throw f : ExceptT Fault (StateM S) α) work' :=
  fun _ _ _ _ _ run => absurd (congrArg Prod.fst run) nofun

theorem bind {next : α → ExceptT Fault (StateM S) β} {next' : α' → ExceptT Fault (StateM S') β'}
    (h : Retraced I rel u work work')
    (k : ∀ v a a', u ≤ v → rel v a a' → Retraced I rel' v (next a) (next' a')) :
    Retraced I rel' u (work >>= next) (work' >>= next') := by
  intro s s' states b q run
  rw [ExceptT.run_bind, StateT.run_bind] at run
  rcases first : work.run.run s with ⟨outcome, t⟩
  rw [first] at run
  cases outcome with
  | error f => exact absurd (congrArg Prod.fst run) nofun
  | ok a =>
      rcases h s s' states a t first with ⟨v, a', t', first', later, related, states⟩
      rcases k v a a' later related t t' states b q run with
        ⟨w, b', q', second', after, related, states⟩
      refine ⟨w, b', q', ?_, later.trans after, related, states⟩
      rw [ExceptT.run_bind, StateT.run_bind, first']
      exact second'

/-- What the first run does alone does not change the world. -/
theorem alone {work : ExceptT Fault (StateM S) Unit}
    (h : ∀ s', Triple (I u · s') work (fun _ s => I u s s') fun _ _ => True) :
    Retraced I (fun _ _ _ => True) u work (pure () : ExceptT Fault (StateM S') Unit) := by
  intro s s' states a t run
  have done := h s' s states
  rw [run] at done
  exact ⟨u, (), s', rfl, le_rfl, trivial, done⟩

/-- What is known of any value that the first piece of work comes to. -/
theorem noting {P : α → Prop} (h : Retraced I rel u work work')
    (notes : ∀ s a t, work.run.run s = (.ok a, t) → P a) :
    Retraced I (fun v a a' => rel v a a' ∧ P a) u work work' := by
  intro s s' states a t run
  rcases h s s' states a t run with ⟨v, a', t', run', later, related, states⟩
  exact ⟨v, a', t', run', later, ⟨related, notes s a t run⟩, states⟩

/-- One question is answered alike in both runs. -/
theorem ite {p : Prop} [Decidable p] {other : ExceptT Fault (StateM S) α}
    {other' : ExceptT Fault (StateM S') α'} (first : p → Retraced I rel u work work')
    (second : ¬ p → Retraced I rel u other other') :
    Retraced I rel u (if p then work else other) (if p then work' else other') := by
  split
  · exact first ‹_›
  · exact second ‹_›

/-! ## Workspaces -/

variable {K : Type} {J : W → Workspace K → Workspace K → Prop}

theorem refuse {e : Error} {work' : Work K α'} :
    Retraced J rel u (Work.refuse e : Work K α) work' :=
  giveUp

theorem ofExcept {x : Except Error α} {x' : Except Error α'}
    (h : ∀ a, x = .ok a → ∃ a', x' = .ok a' ∧ rel u a a') :
    Retraced J rel u (Work.ofExcept x) (Work.ofExcept x') := by
  cases x with
  | error e => exact refuse
  | ok a =>
      rcases h a rfl with ⟨a', rfl, related⟩
      exact value related

/-- Work that starts a state of its own forgets it in the end. -/
theorem starting {R : W → T → T' → Prop} {t : T} {t' : T'} {work : StatefulWork K T α}
    {work' : StatefulWork K T' α'} (start : R u t t')
    (h : Retraced (fun v (s : Workspace K × T) (s' : Workspace K × T') => J v s.1 s'.1 ∧ R v s.2 s'.2)
      rel u work work') :
    Retraced J rel u (Work.starting t work) (Work.starting t' work') := by
  intro w w' workspaces a after run
  change (Work.starting t work : Work K α) w = (.ok a, after) at run
  rw [Work.starting] at run
  rcases outcome : work.run.run (w, t) with ⟨_ | b, v, s⟩
  · rw [outcome] at run
    cases run
  · rw [outcome] at run
    cases run
    rcases h (w, t) (w', t') ⟨workspaces, start⟩ a (after, s) outcome with
      ⟨v, a', ⟨w'', s'⟩, outcome', later, related, states⟩
    refine ⟨v, a', w'', ?_, later, related, states.1⟩
    change (Work.starting t' work' : Work K α') w' = _
    rw [Work.starting, outcome']

end Retraced

end

/-! ## Recipes -/

/-- A recipe is carried out as one with which it accords in every world to come, if this is so of its
constructions and of the requests that it may put. -/
theorem Recipe.Accords.retraced {K ρ σ T T' : Type} {c : W → Correspondence K ρ σ}
    {rel : W → α → α' → Prop} {I : W → Workspace K × T → Workspace K × T' → Prop} {u : W}
    {r : Registry K} {P : ρ → Prop} {recipe : Recipe K ρ σ α} {recipe' : Recipe K ρ σ α'}
    {answer : ρ → StatefulWork K T σ} {answer' : ρ → StatefulWork K T' σ}
    (h : ∀ v, u ≤ v → recipe.Accords (c v) (rel v) recipe') (asks : recipe.AsksOnly r P)
    (nodes : ∀ v w n m, v ≤ w → (c v).nodes n m → (c w).nodes n m)
    (replies : ∀ v w a a', v ≤ w → (c v).answered a a' → (c w).answered a a')
    (makes : ∀ v k k', u ≤ v → k.Like (c v).nodes k' →
      Retraced I (fun w => (c w).nodes) v (Work.within (r.make k)) (Work.within (r.make k')))
    (answers : ∀ v request request', u ≤ v → P request → (c v).asked request request' →
      Retraced I (fun w => (c w).answered) v (answer request) (answer' request')) :
    Retraced I rel u
      (recipe.run (fun k => Work.within (r.make k)) answer fun e => Work.within (Work.refuse e))
      (recipe'.run (fun k => Work.within (r.make k)) answer' fun e =>
        Work.within (Work.refuse e)) := by
  induction recipe generalizing recipe' u with
  | done a =>
      rcases h u le_rfl with related | _
      exact .value related
  | refuse e => exact .giveUp
  | make k next ih =>
      rcases h u le_rfl with _ | _ | ⟨like, _⟩ | _
      have made := (makes u k _ le_rfl like).noting fun s n t run =>
        asks s.1 n t.1 (Work.runIn_of_within run)
      refine made.bind fun v n m later both => ?_
      rcases both with ⟨related, asks⟩
      refine ih n (fun w after => ?_) asks (fun w k k' after => makes w k k' (later.trans after))
        fun w q q' after => answers w q q' (later.trans after)
      rcases h w (later.trans after) with _ | _ | ⟨_, goesOn⟩ | _
      exact goesOn n m (nodes v w n m after related)
  | ask request next ih =>
      rcases h u le_rfl with _ | _ | _ | ⟨asked, _⟩
      refine (answers u request _ le_rfl asks.1 asked).bind fun v a a' later related => ?_
      refine ih a (fun w after => ?_) (asks.2 a) (fun w k k' after => makes w k k' (later.trans after))
        fun w q q' after => answers w q q' (later.trans after)
      rcases h w (later.trans after) with _ | _ | _ | ⟨_, goesOn⟩
      exact goesOn a a' (replies v w a a' after related)

end SymbolicLinalg
