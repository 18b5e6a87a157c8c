import SymbolicLinalg.Proofs.Accord
import SymbolicLinalg.Proofs.Counterpart
import SymbolicLinalg.Proofs.Extension
import SymbolicLinalg.Proofs.Traversal

/-!
# Parallel — passes with the standard registry and with an extension of it

Everything is done twice, with the standard registry and with an extension of it, in workspaces that
hand out identities in step.  Over counterparts the same operators are found, their hooks accord, and
both runs remember counterparts for counterparts.  So the second run follows the first.

* `Comparison.Makes`: two ways to carry out constructions that make counterparts;
* `Alongside`: the second registry is an extension of the standard one;
* `Alongside.make_makes`: construction, by induction on how deeply hooks are nested;
* `Alongside.lowerNext_visits`, `foldNode_visits`, `substituteNode_visits`, `deriveNext_visits`: the
  passes, by induction on the expression.
-/

namespace SymbolicLinalg

open Mirrors

variable {K : Type} {c : Comparison} {n m : Node K} {ns ms : List (Node K)}

namespace Comparison

/-! ## New nodes -/

theorem fresh_mirrors : Mirrors c.Keeps (Work.fresh : Work K NodeId) Work.fresh c.Pairs := by
  refine Mirrors.take fun w w' keeps => ?_
  rcases keeps with ⟨k, now, now'⟩
  exact ⟨.inr ⟨k, now, now'⟩, k + 1, congrArg (· + 1) now, congrArg (· + 1) now'⟩

theorem newConstant_mirrors (v : Literal K) :
    Mirrors c.Keeps (Node.newConstant v) (Node.newConstant v) c.Matches :=
  fresh_mirrors.bind fun _ _ ids => .value (.constant v ids)

theorem newApplication_mirrors {s : Signature} (known : c.known s) (operands : c.AllMatch ns ms) :
    Mirrors c.Keeps (Node.newApplication s ns) (Node.newApplication s ms) c.Matches :=
  fresh_mirrors.bind fun _ _ ids => .value (.application ids known operands)

/-- Events are of no account. -/
theorem record_mirrors (e e' : Event K) :
    Mirrors c.Keeps (Work.record e) (Work.record e') fun _ _ => True :=
  .update fun _ _ keeps => keeps

/-! ## Construction -/

/-- Over counterparts, both ways to carry constructions out make counterparts. -/
def Makes (c : Comparison) (make make' : Construction K → Work K (Node K)) : Prop :=
  ∀ k k' : Construction K, k.Like c.Matches k' → Mirrors c.Keeps (make k) (make' k') c.Matches

section

variable {make make' : Construction K → Work K (Node K)} {d : Definition K}

theorem Makes.follow_mirrors (makes : c.Makes make make') {α α' : Type} {rel : α → α' → Prop}
    {rule : Rule K α} {rule' : Rule K α'} (accords : rule.Accords (.building c.Matches) rel rule') :
    Mirrors c.Keeps (Registry.follow make rule) (Registry.follow make' rule') rel :=
  accords.run_mirrors makes (fun request => request.elim) fun _ => .refuse

theorem settle_mirrors (known : c.known d.signature) (operands : c.AllMatch ns ms)
    {simplified? simplified?' : Option (Node K)}
    (related : Option.Rel c.Matches simplified? simplified?') :
    Mirrors c.Keeps (Registry.settle d ns simplified?) (Registry.settle d ms simplified?')
      c.Matches := by
  cases related with
  | none => exact newApplication_mirrors known operands
  | some simplified =>
      refine Mirrors.ite (by rw [simplified.shape]) (fun _ => .refuse) fun _ => ?_
      exact (record_mirrors _ _).bind fun _ _ _ => .value simplified

/-- A definition is applied to counterparts, if its `optimize` hook does the same with them. -/
theorem Makes.buildWith_mirrors (makes : c.Makes make make') (known : c.known d.signature)
    (operands : c.AllMatch ns ms)
    (simplifies : ∀ optimize, d.hooks.optimize = some optimize →
      (optimize ns).Accords (.building c.Matches) (Option.Rel c.Matches) (optimize ms)) :
    Mirrors c.Keeps (Registry.buildWith make d ns) (Registry.buildWith make' d ms) c.Matches := by
  have checked : Mirrors c.Keeps
      (Work.ofExcept (Registry.checkOperands d.signature ns) : Work K Unit)
      (Work.ofExcept (Registry.checkOperands d.signature ms)) fun _ _ => True := by
    rw [Registry.checkOperands_congr (Matches.all_shape operands)]
    exact .check
  have simplified : Mirrors c.Keeps (Registry.simplify? make d ns) (Registry.simplify? make' d ms)
      (Option.Rel c.Matches) := by
    rw [Registry.simplify?, Registry.simplify?]
    cases hook : d.hooks.optimize with
    | none => exact .value .none
    | some optimize => exact makes.follow_mirrors (simplifies optimize hook)
  exact checked.bind fun _ _ _ => simplified.bind fun _ _ => settle_mirrors known operands

end

/-! ## Memos -/

/-- Both passes have found out the same: what they know of counterparts are counterparts. -/
def Remembers (c : Comparison) (memo memo' : Memo K) : Prop :=
  ∀ i j, c.Pairs i j → Option.Rel c.Matches memo[i]? memo'[j]?

theorem remembers_empty : c.Remembers (∅ : Memo K) ∅ := by
  intro i j _
  rw [Std.HashMap.getElem?_empty, Std.HashMap.getElem?_empty]
  exact .none

theorem Remembers.insert {memo memo' : Memo K} (h : c.Remembers memo memo') {i j : NodeId}
    (ids : c.Pairs i j) (counterparts : c.Matches n m) :
    c.Remembers (memo.insert i n) (memo'.insert j m) := by
  intro i' j' ids'
  rw [Std.HashMap.getElem?_insert, Std.HashMap.getElem?_insert]
  -- an identity is found in the one memo if its counterpart is found in the other
  refine relates_ite ?_ (.some counterparts) (h i' j' ids')
  rw [Bool.eq_iff_iff, beq_iff_eq, beq_iff_eq]
  exact (ids.eq_iff ids').symm

/-- What is known of leaves that are replaced, and that are from before the runs like what replaces
them. -/
theorem remembers_bindingMemo {bindings : List (Binding K)}
    (shared : ∀ b ∈ bindings, c.Pairs b.leaf.id b.leaf.id ∧ c.Matches b.replacement b.replacement) :
    c.Remembers (Registry.bindingMemo bindings) (Registry.bindingMemo bindings) := by
  have adding (memo : Memo K) (h : c.Remembers memo memo) :
      let all := bindings.foldl (fun memo b => memo.insert b.leaf.id b.replacement) memo
      c.Remembers all all := by
    induction bindings generalizing memo with
    | nil => exact h
    | cons b rest ih =>
        rw [List.forall_mem_cons] at shared
        exact ih shared.2 _ (h.insert shared.1.1 shared.1.2)
  exact adding ∅ remembers_empty

/-- Two passes come to counterparts, and have found out the same. -/
abbrev Parallel (c : Comparison) (pass pass' : Pass K (Node K)) : Prop :=
  Mirrors (Beside c.Keeps c.Remembers) pass pass' c.Matches

/-- The passes visit counterparts in parallel. -/
abbrev Visits (c : Comparison) (visit visit' : Node K → Pass K (Node K)) : Prop :=
  ∀ n m, c.Matches n m → c.Parallel (visit n) (visit' m)

theorem remember_mirrors {i j : NodeId} (ids : c.Pairs i j) (counterparts : c.Matches n m) :
    Mirrors (Beside c.Keeps c.Remembers) (Pass.remember i n) (Pass.remember j m)
      fun _ _ => True :=
  .update fun _ _ related => ⟨related.1, related.2.insert ids counterparts⟩

/-- Counterparts are looked up before they are worked on. -/
theorem parallel_knowing {pass pass' : Pass K (Node K)} {i j : NodeId} (ids : c.Pairs i j)
    (h : c.Parallel pass pass') :
    c.Parallel
      (do
        match ← Pass.known? i with
        | some known => return known
        | none => pass)
      (do
        match ← Pass.known? j with
        | some known => return known
        | none => pass') := by
  have found : Mirrors (Beside c.Keeps c.Remembers) (Pass.known? i : Pass K _) (Pass.known? j)
      (Option.Rel c.Matches) :=
    Mirrors.read.bind fun _ _ related => .value (related.2 i j ids)
  refine found.bind fun known? known?' related => ?_
  cases related with
  | none => exact h
  | some counterparts => exact .value counterparts

/-- What has become of counterparts is remembered for them. -/
theorem parallel_remembering {pass pass' : Pass K (Node K)} {i j : NodeId} (ids : c.Pairs i j)
    (h : c.Parallel pass pass') :
    c.Parallel
      (do
        let result ← pass
        Pass.remember i result
        return result)
      (do
        let result ← pass'
        Pass.remember j result
        return result) :=
  h.bind fun _ _ counterparts => (remember_mirrors ids counterparts).bind fun _ _ _ =>
    .value counterparts

/-- Requests for counterparts are answered in parallel, since these have the same place among the
operands, if any. -/
theorem answerDerivative_visits [Arithmetic K] {r r' : Registry K} {wrt : Node K}
    {again again' : Node K → Pass K (Node K)} (visits : c.Visits again again')
    (operands : c.AllMatch ns ms)
    (derives : ∀ n ∈ ns, ∀ m, c.Matches n m →
      c.Parallel (r.deriveWith wrt again n) (r'.deriveWith wrt again' m)) :
    c.Visits (Registry.answerDerivative (r.derivesWith wrt again ns) again)
      (Registry.answerDerivative (r'.derivesWith wrt again' ms) again') := by
  intro n m counterparts
  rw [Registry.derivesWith_eq_map, Registry.derivesWith_eq_map]
  induction operands with
  | nil => exact visits n m counterparts
  | @cons a b rest rest' head _ ih =>
      have same := counterparts.pairs.eq_iff head.pairs
      rw [Registry.answerDerivative, Registry.answerDerivative, List.map_cons, List.map_cons,
        List.lookup_cons, List.lookup_cons]
      by_cases found : n.id = a.id
      · rw [beq_iff_eq.2 found, beq_iff_eq.2 (same.1 found)]
        exact derives a List.mem_cons_self b head
      · rw [beq_eq_false_iff_ne.2 found, beq_eq_false_iff_ne.2 fun eq => found (same.2 eq)]
        exact ih fun x hx => derives x (List.mem_cons_of_mem a hx)

end Comparison

open Comparison

/-! ## The two registries -/

variable [Arithmetic K] [Numeral K]

/-- One run is with the standard registry, the other with an extension of it.  Both come after the
constants that the standard operators have made for themselves. -/
structure Alongside (c : Comparison) (extended : Registry K) : Prop where
  extension : Registry.standard.Extends extended
  known (s : Signature) : c.known s ↔ (Registry.standard : Registry K).Knows s
  own : ∀ i < Standard.axisRotations.length, c.Pairs i i

namespace Alongside

variable {extended : Registry K} {s : Signature} (h : Alongside c extended)

include h

theorem hooks_eq (known : c.known s) : extended.hooks s = Registry.standard.hooks s :=
  h.extension.hooks_eq ((h.known s).1 known)

/-- The node of a generator is from before the runs. -/
theorem generator_matches {id : NodeId} {r : Standard.AxisRotation}
    (found : Standard.axisRotations[id]? = some r) :
    c.Matches (.constant id (r.generator : Literal K)) (.constant id r.generator) :=
  .constant _ (h.own id (List.getElem?_eq_some_iff.1 found).1)

theorem makeWithin_makes (depth : Nat) :
    c.Makes (Registry.standard.makeWithin depth) (extended.makeWithin depth) := by
  induction depth with
  | zero => exact fun _ _ _ => .giveUp
  | succ depth ih =>
      -- the definition that is found is one of the standard registry
      have built {found found' : Except Error (Definition K)} {ns ms : List (Node K)}
          (same : ∀ d, found = .ok d → found' = .ok d)
          (mem : ∀ d, found = .ok d → d ∈ (Registry.standard : Registry K).definitions)
          (operands : c.AllMatch ns ms) :
          Mirrors c.Keeps
            (do
              let d ← Work.ofExcept found
              Registry.buildWith (Registry.standard.makeWithin depth) d ns)
            (do
              let d ← Work.ofExcept found'
              Registry.buildWith (extended.makeWithin depth) d ms)
            c.Matches := by
        have resolved : Mirrors c.Keeps (Work.ofExcept found : Work K _) (Work.ofExcept found')
            fun d d' => d ∈ (Registry.standard : Registry K).definitions ∧ d' = d :=
          .ofExcept fun d ok => ⟨d, same d ok, mem d ok, rfl⟩
        refine resolved.bind fun d d' found => ?_
        obtain ⟨hd, rfl⟩ := found
        refine ih.buildWith_mirrors ((h.known _).2 ⟨d', hd, rfl⟩) operands fun optimize hook => ?_
        rcases Standard.exists_operator hd with ⟨o, rfl⟩
        exact o.accords_optimize Matches.resembles operands hook
      intro k k' like
      cases like with
      | constant v => exact newConstant_mirrors v
      | apply name operands =>
          refine built (fun d found => ?_) (fun d found => ?_) operands
          · rw [Matches.all_shape operands]
            exact h.extension.resolve_eq found
          · exact (Registry.mem_of_resolve_eq_ok found).1
      | applyFor result name operands =>
          refine built (fun d found => ?_) (fun d found => ?_) operands
          · rw [Matches.all_shape operands]
            exact h.extension.resolveAs_eq found
          · exact (Registry.mem_of_resolveAs_eq_ok found).1

theorem make_makes : c.Makes Registry.standard.make extended.make :=
  h.makeWithin_makes nestingLimit

theorem apply_mirrors (name : String) (operands : c.AllMatch ns ms) :
    Mirrors c.Keeps (Registry.standard.apply name ns) (extended.apply name ms) c.Matches :=
  h.make_makes _ _ (.apply name operands)

theorem rebuild_mirrors (known : c.known s) (operands : c.AllMatch ns ms) :
    Mirrors c.Keeps (Registry.standard.rebuild s ns) (extended.rebuild s ms) c.Matches := by
  rw [Registry.rebuild, Registry.rebuild, h.hooks_eq known]
  refine h.make_makes.buildWith_mirrors known operands fun optimize hook => ?_
  rcases Standard.operator_of_hook (·.optimize) rfl hook with ⟨o, _, hook⟩
  exact o.accords_optimize Matches.resembles operands hook

/-! ### Lowering -/

theorem checkedExpansion?_mirrors (known : c.known s) (operands : c.AllMatch ns ms) :
    Mirrors c.Keeps (Registry.standard.checkedExpansion? s ns) (extended.checkedExpansion? s ms)
      (Option.Rel c.Matches) := by
  have expanded : Mirrors c.Keeps (Registry.standard.expansion? s ns) (extended.expansion? s ms)
      (Option.Rel fun p p' => c.Matches p.2 p'.2) := by
    rw [Registry.expansion?, Registry.expansion?, h.hooks_eq known]
    cases replace : ((Registry.standard : Registry K).hooks s).replace with
    | some rule =>
        rcases Standard.operator_of_hook (·.replace) rfl replace with ⟨o, _, hook⟩
        refine (h.make_makes.follow_mirrors (o.accords_replace Matches.resembles operands hook)).bind ?_
        exact fun _ _ counterparts => .value (.some counterparts)
    | none =>
        cases expand : ((Registry.standard : Registry K).hooks s).expand with
        | none => exact .value .none
        | some rule =>
            rcases Standard.operator_of_hook (·.expand) rfl expand with ⟨o, _, hook⟩
            refine (h.make_makes.follow_mirrors (o.accords_expand Matches.resembles operands hook)).bind ?_
            rintro _ _ (counterparts | _)
            · exact .value (.some counterparts)
            · exact .value .none
  refine expanded.bind fun expansion expansion' related => ?_
  cases related with
  | none => exact .value .none
  | some counterparts =>
      refine Mirrors.ite (by rw [counterparts.shape]) (fun _ => .refuse) fun _ => ?_
      exact (record_mirrors _ _).bind fun _ _ _ => .value (.some counterparts)

/-- Lowering goes on in parallel, if it does so for expansions. -/
theorem lowerWith_visits {again again' : Node K → Pass K (Node K)} (visits : c.Visits again again') :
    c.Visits (Registry.standard.lowerWith again) (extended.lowerWith again') := by
  intro n
  induction n using Node.induct with
  | constant id v =>
      rintro _ (⟨_, ids⟩ | _)
      rw [Registry.lowerWith, Registry.lowerWith]
      exact .value (.constant v ids)
  | leaf id name s =>
      rintro _ (_ | ⟨_, _, ids⟩)
      rw [Registry.lowerWith, Registry.lowerWith]
      exact .value (.leaf name s ids)
  | application id s ns ih =>
      rintro _ (_ | _ | ⟨ids, known, operands⟩)
      rename_i id' ms
      rw [Registry.lowerWith_application, Registry.lowerWith_application,
        Registry.lowerAllWith_eq_mapM, Registry.lowerAllWith_eq_mapM]
      refine parallel_knowing ids ((record_mirrors _ _).within.bind fun _ _ _ => ?_)
      refine (Mirrors.mapM operands ih).bind fun lowered lowered' forms => ?_
      have rewritten : c.Parallel (Registry.standard.rewrite again id s ns lowered)
          (extended.rewrite again' id' s ms lowered') := by
        refine (h.checkedExpansion?_mirrors known forms).within.bind fun _ _ related => ?_
        cases related with
        | some counterparts => exact visits _ _ counterparts
        | none =>
            refine Mirrors.ite (by rw [Matches.all_allSame forms operands]) (fun _ => ?_) fun _ => ?_
            · exact .value (.application ids known operands)
            · exact (newApplication_mirrors known forms).within
      refine rewritten.bind fun _ _ counterparts => ?_
      refine (remember_mirrors ids counterparts).bind fun _ _ _ => ?_
      exact (remember_mirrors counterparts.pairs counterparts).bind fun _ _ _ => .value counterparts

theorem lowerNext_visits : c.Visits Registry.standard.lowerNext extended.lowerNext := by
  have within (depth : Nat) :
      c.Visits (Registry.standard.lowerWithin depth) (extended.lowerWithin depth) := by
    induction depth with
    | zero => exact fun _ _ _ => .giveUp
    | succ depth ih => exact h.lowerWith_visits ih
  exact within nestingLimit

/-! ### Folding -/

theorem foldApplication_mirrors {folded folded' : List (Node K)} (known : c.known s)
    (operands : c.AllMatch ns ms) (forms : c.AllMatch folded folded') (kept : c.Matches n m) :
    Mirrors c.Keeps (Registry.standard.foldApplication s ns folded n)
      (extended.foldApplication s ms folded' m) c.Matches := by
  have refitted : Mirrors c.Keeps
      (if Node.allSame folded ns then pure n else Registry.standard.rebuild s folded)
      (if Node.allSame folded' ms then pure m else extended.rebuild s folded') c.Matches := by
    refine Mirrors.ite (by rw [Matches.all_allSame forms operands]) (fun _ => .value kept) fun _ => ?_
    exact h.rebuild_mirrors known forms
  rw [Registry.foldApplication, Registry.foldApplication, h.hooks_eq known,
    Matches.all_literals? forms]
  cases ((Registry.standard : Registry K).hooks s).fold with
  | none => exact refitted
  | some fold =>
      cases Node.literals? folded with
      | none => exact refitted
      | some values =>
          refine Mirrors.ite Iff.rfl (fun _ => .refuse) fun _ => ?_
          exact (record_mirrors _ _).bind fun _ _ _ => newConstant_mirrors _

theorem foldNode_visits : c.Visits Registry.standard.foldNode extended.foldNode := by
  intro n
  induction n using Node.induct with
  | constant id v =>
      rintro _ (⟨_, ids⟩ | _)
      rw [Registry.foldNode, Registry.foldNode]
      exact .value (.constant v ids)
  | leaf id name s =>
      rintro _ (_ | ⟨_, _, ids⟩)
      rw [Registry.foldNode, Registry.foldNode]
      exact .value (.leaf name s ids)
  | application id s ns ih =>
      rintro _ (_ | _ | ⟨ids, known, operands⟩)
      rw [Registry.foldNode, Registry.foldNode, Registry.foldNodes_eq_mapM,
        Registry.foldNodes_eq_mapM]
      refine parallel_knowing ids ((Mirrors.mapM operands ih).bind fun folded folded' forms => ?_)
      have kept := Matches.application ids known operands
      exact parallel_remembering ids (h.foldApplication_mirrors known operands forms kept).within

/-! ### Substitution -/

theorem substituteNode_visits : c.Visits Registry.standard.substituteNode extended.substituteNode := by
  intro n
  induction n using Node.induct with
  | constant id v =>
      rintro _ (⟨_, ids⟩ | _)
      rw [Registry.substituteNode, Registry.substituteNode]
      exact parallel_knowing ids (.value (.constant v ids))
  | leaf id name s =>
      rintro _ (_ | ⟨_, _, ids⟩)
      rw [Registry.substituteNode, Registry.substituteNode]
      exact parallel_knowing ids (.value (.leaf name s ids))
  | application id s ns ih =>
      rintro _ (_ | _ | ⟨ids, known, operands⟩)
      rw [Registry.substituteNode_application, Registry.substituteNode_application]
      refine parallel_knowing ids ((Mirrors.mapM operands ih).bind fun replaced replaced' forms => ?_)
      refine parallel_remembering ids ?_
      rw [Registry.refit, Registry.refit]
      refine Mirrors.ite (by rw [Matches.all_allSame forms operands]) (fun _ => ?_) fun _ => ?_
      · exact .value (.application ids known operands)
      · exact (h.rebuild_mirrors known forms).within

/-! ### Differentiation -/

theorem differentiate_parallel {answer answer' : Node K → Pass K (Node K)} {wrt wrt' : Node K}
    {id id' : NodeId} (known : c.known s) (operands : c.AllMatch ns ms)
    (answers : c.Visits answer answer') :
    c.Parallel (Registry.standard.differentiate wrt id s ns answer)
      (extended.differentiate wrt' id' s ms answer') := by
  rw [Registry.differentiate, Registry.differentiate, h.hooks_eq known]
  cases hook : ((Registry.standard : Registry K).hooks s).deriv with
  | none => exact Mirrors.refuse_within
  | some deriv =>
      rcases Standard.operator_of_hook (·.deriv) rfl hook with ⟨o, _, hook⟩
      refine (record_mirrors _ _).within.bind fun _ _ _ => ?_
      have like : Standard.Differentiating ⟨c.Matches, c.Matches, c.Matches⟩ :=
        ⟨Matches.resembles, fun _ _ same => same, fun _ _ same => same, h.generator_matches⟩
      refine ((o.accords_deriv like operands hook).run_mirrors
        (fun k k' same => (h.make_makes k k' same).within) answers
        fun _ => Mirrors.refuse_within).bind fun _ _ counterparts => ?_
      refine Mirrors.ite (by rw [counterparts.shape]) (fun _ => Mirrors.refuse_within) fun _ => ?_
      exact .value counterparts

theorem deriveWith_visits {wrt : Node K} {again again' : Node K → Pass K (Node K)}
    (visits : c.Visits again again') :
    c.Visits (Registry.standard.deriveWith wrt again) (extended.deriveWith wrt again') := by
  intro n
  induction n using Node.induct with
  | constant id v =>
      rintro _ (⟨_, ids⟩ | _)
      rw [Registry.deriveWith, Registry.deriveWith]
      exact parallel_knowing ids (parallel_remembering ids (newConstant_mirrors _).within)
  | leaf id name s =>
      rintro _ (_ | ⟨_, _, ids⟩)
      rw [Registry.deriveWith, Registry.deriveWith]
      exact parallel_knowing ids (parallel_remembering ids (newConstant_mirrors _).within)
  | application id s ns ih =>
      rintro _ (_ | _ | ⟨ids, known, operands⟩)
      rw [Registry.deriveWith, Registry.deriveWith]
      refine parallel_knowing ids (parallel_remembering ids ?_)
      exact h.differentiate_parallel known operands (answerDerivative_visits visits operands ih)

theorem deriveNext_visits (wrt : Node K) :
    c.Visits (Registry.standard.deriveNext wrt) (extended.deriveNext wrt) := by
  have within (depth : Nat) :
      c.Visits (Registry.standard.deriveWithin wrt depth) (extended.deriveWithin wrt depth) := by
    induction depth with
    | zero => exact fun _ _ _ => .giveUp
    | succ depth ih => exact h.deriveWith_visits ih
  exact within nestingLimit

end Alongside

end SymbolicLinalg
