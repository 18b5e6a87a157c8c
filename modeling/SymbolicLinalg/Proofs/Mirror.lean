import Mathlib.Data.List.Forall2
import SymbolicLinalg.Workspace

/-!
# Mirror — work that follows other work

`Mirrors I work work' rel` compares two pieces of work: from states related by `I`, whenever the first
comes to a value, so does the second, the values are related by `rel`, and the states that are left by
`I`.  If the first is given up, nothing is said of the second.

The rules below follow the steps from which work is composed, as those of `Triple` do for one piece of
work, so that two runs of a pass are compared along its text.
-/

namespace SymbolicLinalg

variable {S S' α α' β β' : Type}

/-- The second outcome follows the first. -/
def Follows (I : S → S' → Prop) (rel : α → α' → Prop) :
    Except Fault α × S → Except Fault α' × S' → Prop
  | (.ok a, s), (.ok a', s') => rel a a' ∧ I s s'
  | (.ok _, _), (.error _, _) => False
  | (.error _, _), _ => True

/-- From related states, the second work follows the first. -/
def Mirrors (I : S → S' → Prop) (work : ExceptT Fault (StateM S) α)
    (work' : ExceptT Fault (StateM S') α') (rel : α → α' → Prop) : Prop :=
  ∀ s s', I s s' → Follows I rel (work.run.run s) (work'.run.run s')

namespace Mirrors

variable {I : S → S' → Prop} {rel : α → α' → Prop} {work : ExceptT Fault (StateM S) α}
  {work' : ExceptT Fault (StateM S') α'}

/-- What the first work comes to. -/
theorem exists_of_run_eq_ok (h : Mirrors I work work' rel) {s t : S} {s' : S'} {a : α}
    (related : I s s') (run : work.run.run s = (.ok a, t)) :
    ∃ a' t', work'.run.run s' = (.ok a', t') ∧ rel a a' ∧ I t t' := by
  have follows := h s s' related
  rw [run] at follows
  revert follows
  rcases work'.run.run s' with ⟨_ | a', t'⟩
  · exact False.elim
  · exact fun follows => ⟨a', t', rfl, follows⟩

/-! ## Composition -/

theorem value {a : α} {a' : α'} (h : rel a a') :
    Mirrors I (pure a : ExceptT Fault (StateM S) α) (pure a' : ExceptT Fault (StateM S') α') rel :=
  fun _ _ related => ⟨h, related⟩

theorem bind {next : α → ExceptT Fault (StateM S) β} {next' : α' → ExceptT Fault (StateM S') β'}
    {rel' : β → β' → Prop} (h : Mirrors I work work' rel)
    (k : ∀ a a', rel a a' → Mirrors I (next a) (next' a') rel') :
    Mirrors I (work >>= next) (work' >>= next') rel' := by
  intro s s' related
  have follows := h s s' related
  rw [ExceptT.run_bind, StateT.run_bind, ExceptT.run_bind, StateT.run_bind]
  revert follows
  -- given up in the first run, it may be given up or not in the second; but not the other way round
  rcases work.run.run s with ⟨_ | a, t⟩ <;> rcases work'.run.run s' with ⟨_ | a', t'⟩
  · exact id
  · exact fun _ => trivial
  · exact False.elim
  · exact fun follows => k a a' follows.1 t t' follows.2

/-- Work that is never done leaves nothing to be done after it. -/
theorem stop {next : α → ExceptT Fault (StateM S) β} {next' : α' → ExceptT Fault (StateM S') β'}
    {rel' : β → β' → Prop} (h : Mirrors I work work' fun _ _ => False) :
    Mirrors I (work >>= next) (work' >>= next') rel' :=
  h.bind fun _ _ => False.elim

/-- If the first work is given up, anything follows it. -/
theorem giveUp {f : Fault} :
    Mirrors I (throw f : ExceptT Fault (StateM S) α) work' rel :=
  fun _ _ _ => trivial

theorem read :
    Mirrors I (get : ExceptT Fault (StateM S) S) (get : ExceptT Fault (StateM S') S') I :=
  fun _ _ related => ⟨related, related⟩

theorem update {f : S → S} {f' : S' → S'} (h : ∀ s s', I s s' → I (f s) (f' s')) :
    Mirrors I (modify f : ExceptT Fault (StateM S) Unit)
      (modify f' : ExceptT Fault (StateM S') Unit) fun _ _ => True :=
  fun s s' related => ⟨trivial, h s s' related⟩

theorem take {f : S → α × S} {f' : S' → α' × S'}
    (h : ∀ s s', I s s' → rel (f s).1 (f' s').1 ∧ I (f s).2 (f' s').2) :
    Mirrors I (modifyGet f : ExceptT Fault (StateM S) α)
      (modifyGet f' : ExceptT Fault (StateM S') α') rel :=
  h

theorem ite {p p' : Prop} [Decidable p] [Decidable p'] {other : ExceptT Fault (StateM S) α}
    {other' : ExceptT Fault (StateM S') α'} (same : p ↔ p') (first : p → Mirrors I work work' rel)
    (second : ¬ p → Mirrors I other other' rel) :
    Mirrors I (if p then work else other) (if p' then work' else other') rel := by
  by_cases holds : p
  · rw [if_pos holds, if_pos (same.1 holds)]
    exact first holds
  · rw [if_neg holds, if_neg fun holds' => holds (same.2 holds')]
    exact second holds

/-! ## Lists -/

/-- The works for the elements of two lists are carried out side by side. -/
theorem mapM {f : α → ExceptT Fault (StateM S) β} {f' : α' → ExceptT Fault (StateM S') β'}
    {rel' : β → β' → Prop} {l : List α} {l' : List α'} (related : List.Forall₂ rel l l')
    (h : ∀ a ∈ l, ∀ a', rel a a' → Mirrors I (f a) (f' a') rel') :
    Mirrors I (l.mapM f) (l'.mapM f') (List.Forall₂ rel') := by
  induction related with
  | nil => exact .value .nil
  | @cons a a' rest rest' head _ ih =>
      rw [List.mapM_cons, List.mapM_cons]
      refine (h a List.mem_cons_self a' head).bind fun b b' hb => ?_
      refine (ih fun x hx => h x (List.mem_cons_of_mem a hx)).bind fun bs bs' hbs => ?_
      exact .value (.cons hb hbs)

theorem forM {f : α → ExceptT Fault (StateM S) PUnit} {f' : α → ExceptT Fault (StateM S') PUnit}
    {l : List α} (h : ∀ a ∈ l, Mirrors I (f a) (f' a) fun _ _ => True) :
    Mirrors I (l.forM f) (l.forM f') fun _ _ => True := by
  induction l with
  | nil => exact .value trivial
  | cons a rest ih =>
      refine (h a List.mem_cons_self).bind fun _ _ _ => ?_
      exact ih fun x hx => h x (List.mem_cons_of_mem a hx)

/-! ## Workspaces -/

section

variable {K T T' : Type} {J : Workspace K → Workspace K → Prop}

/-- The workspaces are related, and so are the other parts of the states. -/
abbrev Beside (J : Workspace K → Workspace K → Prop) (I : T → T' → Prop) (s : Workspace K × T)
    (s' : Workspace K × T') : Prop :=
  J s.1 s'.1 ∧ I s.2 s'.2

theorem refuse {e : Error} {work' : Work K α'} :
    Mirrors J (Work.refuse e : Work K α) work' rel :=
  giveUp

theorem ofExcept {x : Except Error α} {x' : Except Error α'}
    (h : ∀ a, x = .ok a → ∃ a', x' = .ok a' ∧ rel a a') :
    Mirrors J (Work.ofExcept x) (Work.ofExcept x') rel := by
  cases x with
  | error e => exact giveUp
  | ok a =>
      rcases h a rfl with ⟨a', rfl, related⟩
      exact .value related

/-- One check is passed in both runs, or in neither. -/
theorem check {x : Except Error α} :
    Mirrors J (Work.ofExcept x) (Work.ofExcept x) fun _ _ => True :=
  ofExcept fun a accepted => ⟨a, accepted, trivial⟩

/-- Work inside a larger state leaves the rest of the state alone. -/
theorem within {I : T → T' → Prop} {work : Work K α} {work' : Work K α'}
    (h : Mirrors J work work' rel) :
    Mirrors (Beside J I) (Work.within work) (Work.within work') rel := by
  intro s s' related
  rcases s with ⟨w, t⟩
  rcases s' with ⟨w', t'⟩
  have follows := h w w' related.1
  change Follows (Beside J I) rel ((Work.within work : StatefulWork K T α) (w, t))
    ((Work.within work' : StatefulWork K T' α') (w', t'))
  rw [Work.within_apply, Work.within_apply, Work.runIn, Work.runIn]
  revert follows
  rcases work.run.run w with ⟨_ | a, u⟩ <;> rcases work'.run.run w' with ⟨_ | a', u'⟩
  · exact id
  · exact id
  · exact id
  · exact fun follows => ⟨follows.1, follows.2, related.2⟩

theorem refuse_within {I : T → T' → Prop} {e : Error} {work' : StatefulWork K T' α'} :
    Mirrors (Beside J I) (Work.within (Work.refuse e : Work K α)) work' rel :=
  fun _ _ _ => trivial

/-- Work that starts a state of its own forgets it in the end. -/
theorem starting {I : T → T' → Prop} {t : T} {t' : T'} {work : StatefulWork K T α}
    {work' : StatefulWork K T' α'} (start : I t t') (h : Mirrors (Beside J I) work work' rel) :
    Mirrors J (Work.starting t work) (Work.starting t' work') rel := by
  intro w w' related
  have follows := h (w, t) (w', t') ⟨related, start⟩
  change Follows J rel ((Work.starting t work : Work K α) w) ((Work.starting t' work' : Work K α') w')
  rw [Work.starting, Work.starting]
  revert follows
  rcases work.run.run (w, t) with ⟨_ | a, u, v⟩ <;>
    rcases work'.run.run (w', t') with ⟨_ | a', u', v'⟩
  · exact id
  · exact id
  · exact id
  · exact fun follows => ⟨follows.1, follows.2.1⟩

end

end Mirrors

end SymbolicLinalg
