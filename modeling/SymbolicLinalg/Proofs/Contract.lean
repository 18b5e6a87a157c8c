import Mathlib.Data.List.Forall2
import SymbolicLinalg.Recipe
import SymbolicLinalg.Proofs.Triple

/-!
# Contract — what a recipe ensures

A recipe is verified without regard to the pass that carries it out.  A contract says when a
construction may be asked for in order to get a node with a given property, and the same for
requests and their answers.  `Recipe.Ensures` says that under the contract the recipe comes to a
result with a property, which may also speak of the requests that were put on the way.

* `Ensures.triple`: a pass that keeps its side of the contract carries the recipe out.
-/

namespace SymbolicLinalg

namespace Recipe

variable {K ρ σ α β : Type}

/-- What suffices for a question to be answered by something with a property. -/
structure Terms (ι α : Type) where
  grant : ι → (α → Prop) → Prop
  mono {i : ι} {p q : α → Prop} (imp : ∀ a, p a → q a) : grant i p → grant i q

/-- The terms of those who answer no question. -/
def Terms.none (ι α : Type) : Terms ι α where
  grant _ _ := False
  mono _ := id

/-- The terms on which a recipe is carried out, for constructions and for requests. -/
structure Contract (K ρ σ : Type) where
  builds : Terms (Construction K) (Node K)
  asks : Terms ρ σ

/-- Under the contract the recipe is not refused, and comes to a result with `post`.  The first
argument of `post` is the list of the requests, in their order. -/
def Ensures (c : Contract K ρ σ) : Recipe K ρ σ α → (List ρ → α → Prop) → Prop
  | .done a, post => post [] a
  | .refuse _, _ => False
  | .make k next, post => c.builds.grant k fun n => (next n).Ensures c post
  | .ask r next, post =>
      c.asks.grant r fun a => (next a).Ensures c fun asked => post (r :: asked)

namespace Ensures

variable {c : Contract K ρ σ}

/-! ## Rules -/

theorem mono {recipe : Recipe K ρ σ α} {post post' : List ρ → α → Prop}
    (h : recipe.Ensures c post') (imp : ∀ asked a, post' asked a → post asked a) :
    recipe.Ensures c post := by
  induction recipe generalizing post post' with
  | done a => exact imp [] a h
  | refuse e => exact h
  | make k next ih => exact c.builds.mono (fun n hn => ih n hn imp) h
  | ask r next ih => exact c.asks.mono (fun a ha => ih a ha fun asked => imp (r :: asked)) h

theorem bind {recipe : Recipe K ρ σ α} {next : α → Recipe K ρ σ β}
    {post : List ρ → β → Prop}
    (h : recipe.Ensures c fun asked a =>
      (next a).Ensures c fun further => post (asked ++ further)) :
    (recipe >>= next).Ensures c post := by
  change (Recipe.bind recipe next).Ensures c post
  -- the induction is on the first recipe; its requests come before those of the second
  induction recipe generalizing post with
  | done a => exact h
  | refuse e => exact h
  | make k rest ih => exact c.builds.mono (fun n hn => ih n hn) h
  | ask r rest ih => exact c.asks.mono (fun a ha => ih a ha) h

theorem map {recipe : Recipe K ρ σ α} {f : α → β} {post : List ρ → β → Prop}
    (h : recipe.Ensures c fun asked a => post asked (f a)) :
    (f <$> recipe).Ensures c post := by
  refine Ensures.bind (h.mono fun asked a ha => ?_)
  change post (asked ++ []) (f a)
  rwa [List.append_nil]

/-- A recipe for each element of a list: what is ensured of the elements is ensured of the list. -/
theorem each {f : α → Recipe K ρ σ β} {l : List α} {post : α → List ρ → β → Prop}
    (h : ∀ a ∈ l, (f a).Ensures c (post a)) :
    (Recipe.each f l).Ensures c fun asked bs =>
      ∃ parts : List (List ρ × β), asked = (parts.map Prod.fst).flatten ∧
        bs = parts.map Prod.snd ∧ List.Forall₂ (fun a part => post a part.1 part.2) l parts := by
  induction l with
  | nil => exact ⟨[], rfl, rfl, .nil⟩
  | cons a rest ih =>
      refine Ensures.bind ((h a List.mem_cons_self).mono fun asked b hb => ?_)
      refine Ensures.bind ((ih fun x hx => h x (List.mem_cons_of_mem a hx)).mono ?_)
      intro further bs answered
      rcases answered with ⟨parts, rfl, rfl, hparts⟩
      refine ⟨(asked, b) :: parts, ?_, rfl, .cons hb hparts⟩
      simp

/-! ## Carrying a recipe out -/

/-- A pass carries a recipe out if it can build what the recipe may build and answer what it may
ask.  Its invariant may follow the list of the requests. -/
theorem triple {S : Type} {recipe : Recipe K ρ σ α} {post : List ρ → α → Prop}
    {make : Construction K → ExceptT Fault (StateM S) (Node K)}
    {answer : ρ → ExceptT Fault (StateM S) σ} {refuse : Error → ExceptT Fault (StateM S) α}
    {fault : Fault → S → Prop} (h : recipe.Ensures c post) (invariant : List ρ → S → Prop)
    (makes : ∀ asked k p, c.builds.grant k p →
      Triple (invariant asked) (make k) (fun n s => p n ∧ invariant asked s) fault)
    (answers : ∀ asked r p, c.asks.grant r p →
      Triple (invariant asked) (answer r) (fun a s => p a ∧ invariant (asked ++ [r]) s) fault) :
    Triple (invariant []) (recipe.run make answer refuse)
      (fun a s => ∃ asked, post asked a ∧ invariant asked s) fault := by
  -- the requests so far are generalised, so that the induction may add to them
  suffices general : ∀ before, Triple (invariant before) (recipe.run make answer refuse)
      (fun a s => ∃ asked, post asked a ∧ invariant (before ++ asked) s) fault from general []
  induction recipe generalizing post with
  | done a =>
      intro before
      refine Triple.value fun s hs => ⟨[], h, ?_⟩
      rwa [List.append_nil]
  -- refusing is never within the terms
  | refuse e => exact h.elim
  -- what is made leaves the list of requests as it is
  | make k next ih =>
      intro before
      exact (makes before k _ h).bind fun n => .assuming fun hn => ih n hn before
  -- a request is added at the end of the list
  | ask r next ih =>
      intro before
      refine (answers before r _ h).bind fun a => .assuming ?_
      intro ha
      refine (ih a ha (before ++ [r])).relax ?_
      intro b s answered
      rcases answered with ⟨asked, hb, hs⟩
      refine ⟨r :: asked, hb, ?_⟩
      rwa [List.append_assoc] at hs

end Ensures

end Recipe

end SymbolicLinalg
