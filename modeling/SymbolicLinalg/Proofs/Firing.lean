import SymbolicLinalg.Proofs.Composition
import SymbolicLinalg.Proofs.Relevance

/-!
# Firing — what a hook does when it fires

The trail of a sweep tells that a hook fires with some gradient.  What comes next in the trail is what
the recipe of the hook does with this gradient and the operands of the application: the nodes that it
makes, by which nothing is routed, and the contributions that it asks for, one event each and in their
order.  Apart from this only the seed is routed.

Nothing is assumed of the hooks, and a sweep that is given up has such a trail up to where it stopped.

* `Recipe.Tells`: the trail of a recipe, to its end or until it is given up;
* `Registry.Carried`: a recipe has been carried out in a sweep, and has told its part of the trail;
* `Registry.Swept`: the trail of a sweep, hook by hook;
* `Registry.Swept.carried` and `Registry.Swept.routed`: what has been told to fire has been carried out,
  and what has been routed comes of it;
* `Registry.backpropFrom_swept`: every sweep has such a trail.
-/

namespace SymbolicLinalg

variable {K : Type}

/-! ## Events that route -/

namespace Event

/-- The contribution that the event routes to a node. -/
def routedTo? (id : NodeId) : Event K → Option (Node K)
  | .contributed operand gradient => if operand.id = id then some gradient else none
  | _ => none

/-- The gradient with which the hook of a node fires in the event. -/
def firing? (id : NodeId) : Event K → Option (Node K)
  | .propagating n _ incoming => if n = id then some incoming else none
  | _ => none

/-- In the event nothing is routed and no hook fires. -/
def IsNeutral (event : Event K) : Prop :=
  ∀ id, event.routedTo? id = none ∧ event.firing? id = none

theorem not_isNeutral_contributed (m g : Node K) : ¬ (contributed m g).IsNeutral := fun neutral => by
  simpa [routedTo?] using (neutral m.id).1

theorem not_isNeutral_propagating (id : NodeId) (s : Signature) (g : Node K) :
    ¬ (propagating id s g).IsNeutral := fun neutral => by
  simpa [firing?] using (neutral id).2

end Event

/-- Since some past nothing has been routed and no hook has fired. -/
def Quiet (past : List (Event K)) (w : Workspace K) : Prop :=
  ∃ more, (∀ event ∈ more, event.IsNeutral) ∧ w.events.toList = past ++ more

/-- Since some past the trail has gone on in some way. -/
def Since (past : List (Event K)) (kind : List (Event K) → Prop) (w : Workspace K) : Prop :=
  ∃ part, w.events.toList = past ++ part ∧ kind part

section

variable {past more : List (Event K)} {kind kind' : List (Event K) → Prop} {w : Workspace K}

theorem Quiet.now (w : Workspace K) : Quiet w.events.toList w :=
  ToldSince.now w

theorem Quiet.push (h : Quiet past w) {event : Event K} (neutral : event.IsNeutral) :
    Quiet past { w with events := w.events.push event } :=
  ToldSince.push h neutral

theorem Since.of_append (h : Since (past ++ more) kind w)
    (imp : ∀ part, kind part → kind' (more ++ part)) : Since past kind' w := by
  rcases h with ⟨part, events, told⟩
  exact ⟨more ++ part, by rw [events, List.append_assoc], imp part told⟩

theorem make_quiet (r : Registry K) (c : Construction K) :
    Triple (Quiet past) (r.make c) (fun _ => Quiet past) fun _ => Quiet past :=
  make_tells (fun _ _ _ => ⟨rfl, rfl⟩) r c

end

/-- Where a list is split in front of an element, so is one of two lists that it is composed of. -/
theorem append_split {α : Type} {xs ys before after : List α} {x : α}
    (h : xs ++ ys = before ++ x :: after) :
    (∃ rest, xs = before ++ x :: rest ∧ after = rest ++ ys) ∨
      ∃ front, before = xs ++ front ∧ ys = front ++ x :: after := by
  rcases List.append_eq_append_iff.1 h with ⟨front, split, same⟩ | ⟨rest, split, same⟩
  · exact .inr ⟨front, split, same⟩
  · cases rest with
    | nil => exact .inr ⟨[], by rw [split, List.append_nil, List.append_nil], same.symm⟩
    | cons y rest =>
        obtain ⟨rfl, follows⟩ := List.cons.inj same
        exact .inl ⟨rest, split, follows⟩

/-! ## Recipes -/

/-- The trail of a recipe that contributes, and the outcome.  Neutral events may come at any time. -/
inductive Recipe.Tells (r : Registry K) :
    Recipe K (Contribution K) Unit Unit → Except Fault Unit → List (Event K) → Prop where
  | done : Tells r (.done ()) (.ok ()) []
  | stopped (recipe : Recipe K (Contribution K) Unit Unit) (f : Fault) : Tells r recipe (.error f) []
  | quiet {recipe : Recipe K (Contribution K) Unit Unit} {outcome : Except Fault Unit}
      {more part : List (Event K)} : (∀ event ∈ more, event.IsNeutral) →
      Tells r recipe outcome part → Tells r recipe outcome (more ++ part)
  /-- The recipe goes on with the node that the registry makes for it. -/
  | make {c : Construction K} {next : Node K → Recipe K (Contribution K) Unit Unit} {n : Node K}
      {w w' : Workspace K} {outcome : Except Fault Unit} {part : List (Event K)} :
      (r.make c).runIn w = (.ok n, w') → Tells r (next n) outcome part →
      Tells r (.make c next) outcome part
  /-- What the recipe contributes is routed where the recipe says. -/
  | ask {c : Contribution K} {next : Unit → Recipe K (Contribution K) Unit Unit}
      {outcome : Except Fault Unit} {part : List (Event K)} : Tells r (next ()) outcome part →
      Tells r (.ask c next) outcome (.contributed c.operand c.gradient :: part)

/-- Recipes do not fire hooks. -/
theorem Recipe.Tells.not_firing {r : Registry K} {recipe : Recipe K (Contribution K) Unit Unit}
    {outcome : Except Fault Unit} {part : List (Event K)} (h : recipe.Tells r outcome part)
    (id : NodeId) (s : Signature) (g : Node K) : .propagating id s g ∉ part := by
  induction h with
  | done | stopped => exact List.not_mem_nil
  | quiet neutral _ ih =>
      refine fun member => (List.mem_append.1 member).elim (fun fired => ?_) ih
      exact Event.not_isNeutral_propagating id s g (neutral _ fired)
  | make _ _ ih => exact ih
  | ask _ ih => simpa using ih

namespace Registry

variable [Arithmetic K] [Numeral K] {r : Registry K} {past : List (Event K)}
  {relevant : Std.HashSet NodeId}

/-- Carries the recipe of a hook out, as a part of a sweep. -/
def carryOut (r : Registry K) (relevant : Std.HashSet NodeId)
    (recipe : Recipe K (Contribution K) Unit Unit) : Sweep K Unit :=
  recipe.run (fun c => Work.within (r.make c)) (r.contribute relevant)
    fun e => Work.within (Work.refuse e)

/-- A recipe has been carried out in a sweep after some past and has come to an outcome, and its part
of the trail is what the recipe says. -/
structure Carried (r : Registry K) (relevant : Std.HashSet NodeId) (past : List (Event K))
    (recipe : Recipe K (Contribution K) Unit Unit) (outcome : Except Fault Unit)
    (part : List (Event K)) : Prop where
  run : ∃ s s', s.1.events.toList = past ∧ (r.carryOut relevant recipe).run.run s = (outcome, s') ∧
    s'.1.events.toList = past ++ part
  tells : recipe.Tells r outcome part

omit [Arithmetic K] [Numeral K] in
theorem accumulate_quiet (total? : Option (Node K)) (g : Node K) :
    Triple (Quiet past) (r.accumulate total? g) (fun _ => Quiet past) fun _ => Quiet past := by
  cases total? with
  | none => exact .value fun _ => id
  | some total => exact make_quiet r (.apply "+" [total, g])

/-- A contribution is told unless it is refused, and adding it up is quiet. -/
theorem contribute_told (c : Contribution K) :
    Triple (fun s => s.1.events.toList = past) (r.contribute relevant c)
      (fun _ s => Quiet (past ++ [.contributed c.operand c.gradient]) s.1)
      fun _ s => s.1.events.toList = past ∨
        Quiet (past ++ [.contributed c.operand c.gradient]) s.1 := by
  rw [contribute]
  dsimp only
  split
  · exact Triple.bind (m := fun _ _ => False) (.within fun _ => .refuse fun _ => .inl)
      fun _ _ => False.elim
  let told := past ++ [.contributed c.operand c.gradient]
  refine Triple.bind (m := fun _ s => Quiet told s.1)
    (.within fun _ => .record fun w same => ?_) fun _ => ?_
  · have now := Quiet.now { w with events := w.events.push (.contributed c.operand c.gradient) }
    rwa [Array.toList_push, same] at now
  have adds (total? : Option (Node K)) (keep : Flow K → Node K → Flow K) :
      Triple (fun s => Quiet told s.1)
        (do
          let total ← Work.within (r.accumulate total? c.gradient)
          modify fun s => (s.1, keep s.2 total))
        (fun _ s => Quiet told s.1) fun _ s => s.1.events.toList = past ∨ Quiet told s.1 := by
    refine Triple.bind (m := fun _ s => Quiet told s.1) (.within fun _ => ?_)
      fun total => .update fun _ => id
    exact (accumulate_quiet total? c.gradient).weaken (fun _ => id) (fun _ _ => id) fun _ _ => .inr
  split
  · refine Triple.bind (m := fun _ s => Quiet told s.1) (.read fun _ => id) fun now => ?_
    rcases now with ⟨_, flow⟩
    dsimp only
    split
    · exact adds _ fun flow total => { flow with gradients := flow.gradients.insert c.operand total }
    · exact adds _ fun flow total => { flow with pending := flow.pending.insert c.operand.id total }
  · exact .value fun _ => id

/-- A recipe that is carried out tells what it does, also where it is given up. -/
theorem carryOut_tells (recipe : Recipe K (Contribution K) Unit Unit) :
    Triple (fun s => s.1.events.toList = past) (r.carryOut relevant recipe)
      (fun _ s => Since past (recipe.Tells r (.ok ())) s.1)
      fun f s => Since past (recipe.Tells r (.error f)) s.1 := by
  -- the induction is on the recipe; each step adds to the past of the next one
  induction recipe generalizing past with
  | done _ => exact .value fun _ same => ⟨[], by rw [same, List.append_nil], .done⟩
  | refuse e =>
      exact .within fun _ => .refuse fun _ same =>
        ⟨[], by rw [same, List.append_nil], .stopped (.refuse e) (.error e)⟩
  | make c next ih =>
      have makes : Triple (fun s => s.1.events.toList = past) (Work.within (r.make c) : Sweep K _)
          (fun n s => (∃ w w', (r.make c).runIn w = (.ok n, w')) ∧ Quiet past s.1)
          fun f s => Since past ((Recipe.make c next).Tells r (.error f)) s.1 := by
        have quiet : Triple (Quiet past) (r.make c) (fun _ => Quiet past) fun _ => Quiet past :=
          make_quiet r c
        refine .within fun _ => quiet.ran.weaken ?_ ?_ ?_
        · rintro w rfl
          exact .now w
        · exact fun n w made => ⟨made.1.imp fun start run => ⟨w, run⟩, made.2⟩
        · rintro f w ⟨more, neutral, events⟩
          exact ⟨more ++ [], by rw [events, List.append_nil], .quiet neutral (.stopped _ f)⟩
      refine Triple.bind makes fun n => .assuming ?_
      rintro ⟨w, w', run⟩ s ⟨more, neutral, events⟩
      refine (ih n s events).imp (fun _ s told => told.of_append fun part tells => ?_)
        fun f s told => told.of_append fun part tells => ?_
      · exact .quiet neutral (.make run tells)
      · exact .quiet neutral (.make run tells)
  | ask c next ih =>
      refine Triple.bind ((contribute_told c).weaken (fun _ => id) (fun _ _ => id) ?_) fun _ => ?_
      · rintro f s (same | ⟨more, neutral, events⟩)
        · exact ⟨[], by rw [same, List.append_nil], .stopped _ f⟩
        · refine ⟨.contributed c.operand c.gradient :: (more ++ []), ?_,
            .ask (.quiet neutral (.stopped _ f))⟩
          rw [events, List.append_nil, List.append_assoc, List.singleton_append]
      · rintro s ⟨more, neutral, events⟩
        rw [List.append_assoc] at events
        refine (ih () s events).imp (fun _ s told => told.of_append fun part tells => ?_)
          fun f s told => told.of_append fun part tells => ?_
        · exact .ask (.quiet neutral tells)
        · exact .ask (.quiet neutral tells)

theorem carryOut_carried (recipe : Recipe K (Contribution K) Unit Unit) :
    Triple (fun s => s.1.events.toList = past) (r.carryOut relevant recipe)
      (fun _ s => Since past (r.Carried relevant past recipe (.ok ())) s.1)
      fun f s => Since past (r.Carried relevant past recipe (.error f)) s.1 := by
  intro s same
  have settled : Settles (fun _ s => Since past (recipe.Tells r (.ok ())) s.1)
      (fun f s => Since past (recipe.Tells r (.error f)) s.1)
      ((r.carryOut relevant recipe).run.run s) := carryOut_tells recipe s same
  have carried {outcome : Except Fault Unit} {s' : Workspace K × Flow K}
      (run : (r.carryOut relevant recipe).run.run s = (outcome, s'))
      (told : Since past (recipe.Tells r outcome) s'.1) :
      Since past (r.Carried relevant past recipe outcome) s'.1 := by
    rcases told with ⟨part, events, tells⟩
    exact ⟨part, events, ⟨s, s', same, run, events⟩, tells⟩
  revert settled
  rcases run : (r.carryOut relevant recipe).run.run s with ⟨_ | _, s'⟩
  · exact carried run
  · exact carried run

/-! ## Sweeps -/

/-- After some past, the hook of an application fires with a gradient.  It is carried out there and
then for this gradient and the operands, and its part of the trail comes next. -/
def Fires (r : Registry K) (e : Node K) (deps : List (Node K)) (past : List (Event K)) (id : NodeId)
    (s : Signature) (g : Node K) (outcome : Except Fault Unit) (part : List (Event K)) : Prop :=
  ∃ operands gradient, e.Reaches (.application id s operands) ∧
    (r.hooks s).gradient = some gradient ∧
    r.Carried (relevantTo e deps) (past ++ [.propagating id s g]) (gradient g operands) outcome part

/-- The trail of a sweep after some past, and the outcome.  Apart from neutral events it has the seed
and then, one after the other, hooks that fire. -/
inductive Swept (r : Registry K) (e : Node K) (deps : List (Node K)) (seed : Node K)
    (past : List (Event K)) : Except Fault Unit → List (Event K) → Prop where
  | refused (f : Fault) : Swept r e deps seed past (.error f) []
  | seeded : Swept r e deps seed past (.ok ()) [.contributed e seed]
  | quiet {trail more : List (Event K)} {outcome : Except Fault Unit} :
      Swept r e deps seed past (.ok ()) trail → (∀ event ∈ more, event.IsNeutral) →
      Swept r e deps seed past outcome (trail ++ more)
  | fire {trail part : List (Event K)} {outcome : Except Fault Unit} {id : NodeId} {s : Signature}
      {g : Node K} :
      Swept r e deps seed past (.ok ()) trail →
      r.Fires e deps (past ++ trail) id s g outcome part →
      Swept r e deps seed past outcome (trail ++ .propagating id s g :: part)

variable {e seed n : Node K} {deps nodes : List (Node K)}

theorem propagate_swept (below : e.Reaches n) :
    Triple (fun s => Since past (r.Swept e deps seed past (.ok ())) s.1)
      (r.propagate (relevantTo e deps) n)
      (fun _ s => Since past (r.Swept e deps seed past (.ok ())) s.1)
      fun f s => Since past (r.Swept e deps seed past (.error f)) s.1 := by
  cases n with
  | constant | leaf => exact .value fun _ => id
  | application i s operands =>
      rw [propagate]
      refine Triple.bind (m := fun _ s' => Since past (r.Swept e deps seed past (.ok ())) s'.1)
        (.take fun _ => id) fun incoming? => ?_
      cases incoming? with
      | none => exact .value fun _ => id
      | some incoming =>
          dsimp only
          split
          · refine .within fun _ => .record ?_
            rintro w ⟨trail, events, swept⟩
            refine ⟨trail ++ [.skipped i s], ?_, swept.quiet ?_⟩
            · rw [Array.toList_push, events, List.append_assoc]
            · exact List.forall_mem_singleton.2 fun _ => ⟨rfl, rfl⟩
          split
          · refine .within fun _ => .refuse ?_
            rintro w ⟨trail, events, swept⟩
            exact ⟨trail ++ [], by rw [events, List.append_nil],
              swept.quiet fun _ h => absurd h List.not_mem_nil⟩
          · rename_i gradient hook
            refine Triple.bind (m := fun _ s' => ∃ trail, r.Swept e deps seed past (.ok ()) trail ∧
              s'.1.events.toList = past ++ (trail ++ [.propagating i s incoming]))
              (.within fun _ => .record ?_) fun _ => ?_
            · rintro w ⟨trail, events, swept⟩
              exact ⟨trail, swept, by rw [Array.toList_push, events, List.append_assoc]⟩
            refine .of_exists fun trail => .assuming fun swept => ?_
            have fired (outcome : Except Fault Unit) (part : List (Event K))
                (carried : r.Carried (relevantTo e deps)
                  (past ++ (trail ++ [.propagating i s incoming])) (gradient incoming operands)
                  outcome part) :
                r.Swept e deps seed past outcome (trail ++ [.propagating i s incoming] ++ part) := by
              rw [← List.append_assoc] at carried
              rw [List.append_assoc, List.singleton_append]
              exact .fire swept ⟨operands, gradient, below, hook, carried⟩
            exact (carryOut_carried (gradient incoming operands)).weaken (fun _ => id)
              (fun _ _ told => told.of_append (fired (.ok ())))
              fun f _ told => told.of_append (fired (.error f))

theorem sweep_swept (below : ∀ n ∈ nodes, e.Reaches n) :
    Triple (fun s => Since past (r.Swept e deps seed past (.ok ())) s.1)
      (nodes.forM (r.propagate (relevantTo e deps)))
      (fun _ s => Since past (r.Swept e deps seed past (.ok ())) s.1)
      fun f s => Since past (r.Swept e deps seed past (.error f)) s.1 := by
  induction nodes with
  | nil => exact .value fun _ => id
  | cons n rest ih =>
      rw [List.forall_mem_cons] at below
      rw [List.forM]
      exact (propagate_swept below.1).bind fun _ => ih below.2

/-- Every hook that fires in a sweep is carried out to its end, and what it tells comes next. -/
theorem Swept.carried {outcome : Except Fault Unit} {trail before after : List (Event K)}
    {id : NodeId} {s : Signature} {g : Node K} (h : r.Swept e deps seed past outcome trail)
    (complete : outcome = .ok ()) (split : trail = before ++ .propagating id s g :: after) :
    ∃ part rest, after = part ++ rest ∧ r.Fires e deps (past ++ before) id s g (.ok ()) part := by
  -- a place in the trail is in what was there before the last step, or in what the step adds
  induction h generalizing after with
  | refused f => cases complete
  | seeded =>
      cases before with
      | nil => cases (List.cons.inj split).1
      | cons _ before => simp at split
  | quiet _ neutral ih =>
      rcases append_split split with ⟨rest, same, rfl⟩ | ⟨front, _, rfl⟩
      · rcases ih rfl same with ⟨part, rest, rfl, fires⟩
        exact ⟨part, _, List.append_assoc .., fires⟩
      · exact absurd (neutral _ (by simp)) (Event.not_isNeutral_propagating id s g)
  | fire _ fires ih =>
      rcases append_split split with ⟨rest, same, rfl⟩ | ⟨front, rfl, same⟩
      · rcases ih rfl same with ⟨part, rest, rfl, fires⟩
        exact ⟨part, _, List.append_assoc .., fires⟩
      · cases front with
        | nil =>
            -- the hook that fires in this step
            obtain ⟨here, rfl⟩ := List.cons.inj same
            obtain ⟨rfl, rfl, rfl⟩ := Event.propagating.inj here
            rw [List.append_nil]
            exact ⟨_, [], (List.append_nil _).symm, complete ▸ fires⟩
        | cons _ front =>
            obtain ⟨-, rfl⟩ := List.cons.inj same
            rcases fires with ⟨_, _, _, _, carried⟩
            exact absurd (by simp) (carried.tells.not_firing id s g)

/-- Whatever is routed in a sweep but the seed, a hook routes that has fired. -/
theorem Swept.routed {outcome : Except Fault Unit} {trail before after : List (Event K)}
    {m g : Node K} (h : r.Swept e deps seed past outcome trail) (complete : outcome = .ok ())
    (split : trail = before ++ .contributed m g :: after) :
    before = [] ∨ ∃ earlier id s incoming front back rest,
      before = earlier ++ .propagating id s incoming :: front ∧ after = back ++ rest ∧
      r.Fires e deps (past ++ earlier) id s incoming (.ok ()) (front ++ .contributed m g :: back) := by
  induction h generalizing after with
  | refused f => cases complete
  | seeded =>
      cases before with
      | nil => exact .inl rfl
      | cons _ before => simp at split
  | quiet _ neutral ih =>
      rcases append_split split with ⟨rest, same, rfl⟩ | ⟨front, _, rfl⟩
      · refine (ih rfl same).imp_right ?_
        rintro ⟨earlier, id, s, incoming, front, back, rest, begins, rfl, fires⟩
        exact ⟨earlier, id, s, incoming, front, back, _, begins, List.append_assoc .., fires⟩
      · exact absurd (neutral _ (by simp)) (Event.not_isNeutral_contributed m g)
  | fire _ fires ih =>
      rcases append_split split with ⟨rest, same, rfl⟩ | ⟨front, rfl, same⟩
      · refine (ih rfl same).imp_right ?_
        rintro ⟨earlier, id, s, incoming, front, back, rest, begins, rfl, fires⟩
        exact ⟨earlier, id, s, incoming, front, back, _, begins, List.append_assoc .., fires⟩
      · cases front with
        | nil => cases (List.cons.inj same).1
        | cons _ front =>
            -- the hook that fires in this step routes it
            obtain ⟨rfl, rfl⟩ := List.cons.inj same
            exact .inr ⟨_, _, _, _, front, after, [], rfl, (List.append_nil _).symm, complete ▸ fires⟩

/-- Whatever the hooks do, the trail of a sweep is that of the seed and of the hooks that fire, whether
or not the sweep comes to its end. -/
theorem backpropFrom_swept (r : Registry K) (e seed : Node K) (deps : List (Node K)) :
    Triple (fun w => w.events.toList = past) (r.backpropFrom e deps seed)
      (fun _ w => Since past (r.Swept e deps seed past (.ok ())) w)
      fun f w => Since past (r.Swept e deps seed past (.error f)) w := by
  have untold (f : Fault) (w : Workspace K) (same : w.events.toList = past) :
      Since past (r.Swept e deps seed past (.error f)) w :=
    ⟨[], by rw [same, List.append_nil], .refused f⟩
  rw [backpropFrom]
  refine Triple.bind (m := fun _ w => w.events.toList = past)
    (.ofExcept (fun _ _ _ => id) fun error _ => untold (.error error)) fun _ => ?_
  dsimp only
  split
  · exact Triple.bind (m := fun _ _ => False) (.refuse (untold _)) fun _ _ => False.elim
  refine .starting (Triple.bind (m := fun _ s => Since past (r.Swept e deps seed past (.ok ())) s.1)
    ((contribute_told ⟨e, seed⟩).weaken (fun _ => And.left) ?_ ?_) fun _ => ?_)
  · rintro _ s ⟨more, neutral, events⟩
    exact ⟨[.contributed e seed] ++ more, by rw [events, List.append_assoc], .quiet .seeded neutral⟩
  · rintro f s (same | ⟨more, neutral, events⟩)
    · exact untold f s.1 same
    · exact ⟨[.contributed e seed] ++ more, by rw [events, List.append_assoc],
        .quiet .seeded neutral⟩
  · refine (sweep_swept fun n hn => ?_).bind fun _ => ?_
    · exact Node.reaches_of_mem_postOrder (List.mem_reverse.1 hn)
    · exact Triple.bind (m := fun _ s => Since past (r.Swept e deps seed past (.ok ())) s.1)
        (.read fun _ => id) fun _ => .value fun _ => id

end Registry

end SymbolicLinalg
