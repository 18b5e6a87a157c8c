import Mathlib.Data.List.Nodup
import Mathlib.Data.List.Perm.Basic
import SymbolicLinalg.Node.Typing

/-!
# History — what a registry answers after a sequence of calls

Operators are registered one call after the other, and a call may be refused.  What the registry
answers later is a matter of the calls that were accepted alone, and except for the order in which the
candidates of an ambiguous operator are listed not even of their order.

* `Answers`: what is answered after some calls have been accepted;
* `suggestions_unique`: the suggestions for an unknown operator, by a description that does not
  mention any order of the calls;
* `calls_insertOnce`: every sequence of calls that begins with the empty registry.
-/

namespace SymbolicLinalg

variable {K : Type}

namespace Text

variable {texts others : List String}

theorem notAfter_iff {a b : String} : notAfter a b = true ↔ a ≤ b := by
  rw [notAfter, Bool.not_eq_true', decide_eq_false_iff_not, String.not_lt]

/-- Sorted texts stand in increasing order. -/
theorem pairwise_sorted (texts : List String) : (sorted texts).Pairwise (· ≤ ·) := by
  have trans (a b c : String) (ab : notAfter a b = true) (bc : notAfter b c = true) :
      notAfter a c = true :=
    notAfter_iff.2 (String.le_trans (notAfter_iff.1 ab) (notAfter_iff.1 bc))
  have total (a b : String) : (notAfter a b || notAfter b a) = true := by
    rw [Bool.or_eq_true, notAfter_iff, notAfter_iff]
    exact String.le_total a b
  exact (List.pairwise_mergeSort trans total texts).imp notAfter_iff.1

/-- The order of texts does not matter to their sorted list. -/
theorem eq_of_sorted_perm (ordered : texts.Pairwise (· ≤ ·)) (ordered' : others.Pairwise (· ≤ ·))
    (perm : texts.Perm others) : texts = others :=
  perm.eq_of_pairwise (fun _ _ _ _ => String.le_antisymm) ordered ordered'

theorem isNear_iff {s t : String} : isNear s t = true ↔ s = t ∨ OneEdit s.toList t.toList := by
  rw [isNear, atMostOneEdit_iff, String.toList_inj]

/-- Erasing duplicates leaves each text once. -/
theorem nodup_eraseDups : ∀ texts : List String, texts.eraseDups.Nodup
  | [] => List.nodup_nil
  | t :: rest => by
      rw [List.eraseDups_cons, List.nodup_cons, List.mem_eraseDups, List.mem_filter]
      refine ⟨fun h => ?_, nodup_eraseDups _⟩
      simp at h
termination_by texts => texts.length
decreasing_by exact Nat.lt_succ_of_le (List.length_filter_le _ rest)

end Text

namespace Registry

variable {r : Registry K} {d : Definition K} {done calls reordered : List (Definition K)}

/-! ## Calls -/

/-- The registry after a call; a refused call leaves it as it is. -/
def afterCall (r : Registry K) (d : Definition K) : Registry K :=
  match r.register d with
  | .ok extended => extended
  | .error _ => r

def afterCalls (r : Registry K) (calls : List (Definition K)) : Registry K :=
  calls.foldl afterCall r

/-- The calls that are accepted, in their order. -/
def accepted (r : Registry K) : List (Definition K) → List (Definition K)
  | [] => []
  | d :: rest =>
      match r.register d with
      | .ok extended => d :: extended.accepted rest
      | .error _ => r.accepted rest

theorem find?_eq_none_iff {s : Signature} : r.find? s = none ↔ ¬ r.Knows s := by
  simp [find?, Knows]

theorem register_of_knows (known : r.Knows d.signature) :
    r.register d = .error (.alreadyRegistered d.signature) := by
  rw [register, if_pos]
  rwa [Option.isSome_iff_ne_none, ne_eq, find?_eq_none_iff, not_not]

theorem register_of_not_knows (free : ¬ r.Knows d.signature) :
    r.register d = .ok ⟨r.definitions ++ [d]⟩ := by
  rw [register, if_neg]
  rwa [Option.isSome_iff_ne_none, not_not, find?_eq_none_iff]

/-- Calls are appended as far as they are accepted. -/
theorem definitions_afterCalls (r : Registry K) (calls : List (Definition K)) :
    (r.afterCalls calls).definitions = r.definitions ++ r.accepted calls := by
  induction calls generalizing r with
  | nil => exact (List.append_nil r.definitions).symm
  | cons d rest ih =>
      rw [afterCalls, List.foldl_cons, ← afterCalls, ih, afterCall, accepted]
      by_cases known : r.Knows d.signature
      · rw [register_of_knows known]
      · rw [register_of_not_knows known, List.append_assoc, List.singleton_append]

/-- No signature is accepted twice. -/
theorem nodup_afterCalls (distinct : (r.definitions.map (·.signature)).Nodup)
    (calls : List (Definition K)) :
    ((r.afterCalls calls).definitions.map (·.signature)).Nodup := by
  induction calls generalizing r with
  | nil => exact distinct
  | cons d rest ih =>
      rw [afterCalls, List.foldl_cons, ← afterCalls]
      refine ih ?_
      rw [afterCall]
      by_cases known : r.Knows d.signature
      · rwa [register_of_knows known]
      · rw [register_of_not_knows known, List.map_append, List.map_singleton, ← List.concat_eq_append]
        refine distinct.concat ?_
        intro taken
        exact known (List.mem_map.1 taken)

/-- Calls for different signatures are all accepted. -/
theorem accepted_of_nodup (distinct : ((r.definitions ++ calls).map (·.signature)).Nodup) :
    r.accepted calls = calls := by
  induction calls generalizing r with
  | nil => rfl
  | cons d rest ih =>
      have free : ¬ r.Knows d.signature := by
        rintro ⟨e, he, same⟩
        rw [List.map_append, List.nodup_append] at distinct
        exact distinct.2.2 _ (List.mem_map_of_mem he) _
          (List.mem_map_of_mem List.mem_cons_self) same
      rw [accepted, register_of_not_knows free]
      refine congrArg (d :: ·) (ih ?_)
      rwa [List.append_assoc, List.singleton_append]

/-- A refused call might as well not have been made. -/
theorem afterCalls_refused {before : List (Definition K)} {e : Error}
    (refused : (r.afterCalls before).register d = .error e) (after : List (Definition K)) :
    r.afterCalls (before ++ d :: after) = r.afterCalls (before ++ after) := by
  have stays : (r.afterCalls before).afterCall d = r.afterCalls before := by
    rw [afterCall, refused]
  calc r.afterCalls (before ++ d :: after)
      = ((r.afterCalls before).afterCall d).afterCalls after := by
        rw [afterCalls, List.foldl_append, List.foldl_cons]
        rfl
    _ = (r.afterCalls before).afterCalls after := by rw [stays]
    _ = r.afterCalls (before ++ after) := (List.foldl_append ..).symm

/-! ## Suggestions -/

/-- What is suggested after some calls: for a name that has been registered its operators with as many
operands, and else the registered names within one edit. -/
inductive Suggested (done : List (Definition K)) (name : String) (operands : List Shape) :
    List String → Prop where
  | overloads {texts : List String} : (∃ d ∈ done, d.signature.name = name) →
      texts.Pairwise (· ≤ ·) →
      texts.Perm ((done.filter fun d => d.signature.name = name ∧
        d.signature.operands.length = operands.length).map (·.signature.text)) →
      Suggested done name operands texts
  | misspelt {texts : List String} : (∀ d ∈ done, d.signature.name ≠ name) →
      texts.Pairwise (· ≤ ·) → texts.Nodup →
      (∀ t, t ∈ texts ↔ (∃ d ∈ done, d.signature.name = t) ∧
        (t = name ∨ Text.OneEdit t.toList name.toList)) →
      Suggested done name operands texts

theorem named_eq_nil_iff {name : String} :
    r.named name = [] ↔ ∀ d ∈ r.definitions, d.signature.name ≠ name := by
  simp [named]

theorem suggestions_suggested (r : Registry K) (name : String) (operands : List Shape) :
    Suggested r.definitions name operands (r.suggestions name operands) := by
  rw [suggestions]
  split
  · rename_i unknown
    refine .misspelt (named_eq_nil_iff.1 unknown) (Text.pairwise_sorted _) ?_ fun t => ?_
    · exact (Text.sorted_perm _).nodup_iff.2 ((Text.nodup_eraseDups _).filter _)
    · rw [(Text.sorted_perm _).mem_iff, List.mem_filter, List.mem_eraseDups, List.mem_map,
        Text.isNear_iff]
  · rename_i known
    refine .overloads ?_ (Text.pairwise_sorted _) ((Text.sorted_perm _).trans ?_)
    · by_contra unknown
      exact known (named_eq_nil_iff.2 fun d hd same => unknown ⟨d, hd, same⟩)
    · rw [named, List.filter_filter]
      refine .of_eq (congrArg _ (List.filter_congr fun d _ => ?_))
      simp [beq_eq_decide, Bool.and_comm]

/-- The description does not mention the order of the calls. -/
theorem Suggested.of_perm {name : String} {operands : List Shape} {texts : List String}
    (h : Suggested done name operands texts) (perm : done.Perm reordered) :
    Suggested reordered name operands texts := by
  cases h with
  | overloads known ordered same =>
      rcases known with ⟨d, hd, named⟩
      exact .overloads ⟨d, perm.mem_iff.1 hd, named⟩ ordered (same.trans ((perm.filter _).map _))
  | misspelt unknown ordered distinct members =>
      refine .misspelt (fun d hd => unknown d (perm.mem_iff.2 hd)) ordered distinct fun t => ?_
      simp only [members t, perm.mem_iff]

/-- There is only one list of suggestions. -/
theorem suggestions_unique {name : String} {operands : List Shape} {texts others : List String}
    (h : Suggested done name operands texts) (h' : Suggested done name operands others) :
    texts = others := by
  cases h with
  | overloads known ordered same =>
      cases h' with
      | overloads _ ordered' same' =>
          exact Text.eq_of_sorted_perm ordered ordered' (same.trans same'.symm)
      | misspelt unknown _ _ _ =>
          rcases known with ⟨d, hd, named⟩
          exact absurd named (unknown d hd)
  | misspelt unknown ordered distinct members =>
      cases h' with
      | overloads known _ _ =>
          rcases known with ⟨d, hd, named⟩
          exact absurd named (unknown d hd)
      | misspelt _ ordered' distinct' members' =>
          refine Text.eq_of_sorted_perm ordered ordered' ?_
          refine (List.perm_ext_iff_of_nodup distinct distinct').2 fun t => ?_
          rw [members t, members' t]

/-! ## Answers -/

/-- The calls for operators of a name that take the given operands. -/
def answering (done : List (Definition K)) (name : String) (operands : List Shape) :
    List (Definition K) :=
  done.filter fun d => d.signature.name = name ∧ d.signature.operands = operands

/-- What a registry answers after some calls have been accepted, in their order. -/
structure Answers (r : Registry K) (done : List (Definition K)) : Prop where
  refuses : ∀ d, r.register d = .error (.alreadyRegistered d.signature) ↔
    ∃ e ∈ done, e.signature = d.signature
  accepts : ∀ d, (∃ extended, r.register d = .ok extended) ↔
    ∀ e ∈ done, e.signature ≠ d.signature
  size : r.size = done.length
  isEmpty : r.isEmpty = true ↔ done = []
  suggestions : ∀ name operands,
    Suggested done name operands (r.suggestions name operands)
  /-- Exactly one call was for the name and the operands. -/
  resolveOne : ∀ name operands d, answering done name operands = [d] →
    r.resolve name operands = .ok d
  resolveSeveral : ∀ name operands, 2 ≤ (answering done name operands).length →
    r.resolve name operands = .error
      (.severalResults name operands ((answering done name operands).map (·.signature.text)))
  resolveNone : ∀ name operands, answering done name operands = [] →
    r.resolve name operands = .error (.noOperator name operands (r.suggestions name operands))
  resolveAs : ∀ d ∈ done, ∀ result name operands, d.signature = ⟨result, name, operands⟩ →
    r.resolveAs result name operands = .ok d
  resolveAsNone : ∀ result name operands, (∀ d ∈ done, d.signature ≠ ⟨result, name, operands⟩) →
    r.resolveAs result name operands =
      .error (.noOperator name operands (r.suggestions name operands))

theorem candidates_eq_answering (r : Registry K) (name : String) (operands : List Shape) :
    r.candidates name operands = answering r.definitions name operands := by
  refine List.filter_congr fun d _ => ?_
  simp [Signature.answersTo, beq_eq_decide]

theorem find?_eq_some {s : Signature} (distinct : (r.definitions.map (·.signature)).Nodup)
    (hd : d ∈ r.definitions) (same : d.signature = s) : r.find? s = some d := by
  cases found : r.find? s with
  | none => exact absurd ⟨d, hd, same⟩ (find?_eq_none_iff.1 found)
  | some e =>
      -- the definition that is found has the signature, and only one has it
      refine congrArg some (List.inj_on_of_nodup_map distinct (List.mem_of_find?_eq_some found) hd ?_)
      exact (signature_of_find? found).trans same.symm

/-- A registry without duplicates answers as if its definitions had been accepted one by one. -/
theorem answers_definitions (distinct : (r.definitions.map (·.signature)).Nodup) :
    r.Answers r.definitions where
  refuses d := by
    constructor
    · intro refused
      by_contra free
      rw [register_of_not_knows free] at refused
      exact absurd refused nofun
    · exact register_of_knows
  accepts d := by
    constructor
    · rintro ⟨extended, accepted⟩ e he same
      rw [register_of_knows ⟨e, he, same⟩] at accepted
      exact absurd accepted nofun
    · intro free
      refine ⟨_, register_of_not_knows ?_⟩
      rintro ⟨e, he, same⟩
      exact free e he same
  size := rfl
  isEmpty := List.isEmpty_iff
  suggestions := r.suggestions_suggested
  resolveOne name operands d one := resolve_eq_ok_iff.2 (r.candidates_eq_answering _ _ ▸ one)
  resolveSeveral name operands several := by
    rw [← candidates_eq_answering] at several ⊢
    rw [resolve]
    split
    · rename_i one
      rw [one] at several
      exact absurd several (Nat.lt_irrefl 1)
    · rename_i none
      rw [none] at several
      exact absurd several (Nat.not_succ_le_zero 1)
    · rfl
  resolveNone name operands none := by
    rw [← candidates_eq_answering] at none
    rw [resolve, none]
  resolveAs d hd result name operands same := by
    rw [Registry.resolveAs, find?_eq_some distinct hd same]
  resolveAsNone result name operands free := by
    have absent : ¬ r.Knows ⟨result, name, operands⟩ := by
      rintro ⟨d, hd, same⟩
      exact free d hd same
    rw [Registry.resolveAs, find?_eq_none_iff.2 absent]

/-! ## Other orders -/

/-- The same outcome, but for the order in which the candidates are listed. -/
inductive SameOutcome : Except Error (Definition K) → Except Error (Definition K) → Prop where
  | same (outcome : Except Error (Definition K)) : SameOutcome outcome outcome
  | ambiguous (name : String) (operands : List Shape) {texts others : List String} :
      texts.Perm others →
      SameOutcome (.error (.severalResults name operands texts))
        (.error (.severalResults name operands others))

/-- Two registries that cannot be told apart but by the order of ambiguous candidates. -/
structure Agrees (r r' : Registry K) : Prop where
  register : ∀ d e, r.register d = .error e ↔ r'.register d = .error e
  size : r.size = r'.size
  suggestions : ∀ name operands, r.suggestions name operands = r'.suggestions name operands
  resolve : ∀ name operands, SameOutcome (r.resolve name operands) (r'.resolve name operands)
  resolveAs : ∀ result name operands,
    r.resolveAs result name operands = r'.resolveAs result name operands

theorem Answers.register_error_iff (h : r.Answers done) {e : Error} :
    r.register d = .error e ↔
      e = .alreadyRegistered d.signature ∧ ∃ e ∈ done, e.signature = d.signature := by
  constructor
  · intro refused
    have taken : ∃ e ∈ done, e.signature = d.signature := by
      by_contra free
      rcases (h.accepts d).2 fun e he same => free ⟨e, he, same⟩ with ⟨extended, accepted⟩
      exact absurd (accepted.symm.trans refused) nofun
    exact ⟨Except.error.inj (refused.symm.trans ((h.refuses d).2 taken)), taken⟩
  · rintro ⟨rfl, taken⟩
    exact (h.refuses d).2 taken

/-- What is answered does not depend on the order of the calls. -/
theorem Answers.agrees {r' : Registry K} (h : r.Answers done) (h' : r'.Answers reordered)
    (perm : done.Perm reordered) : r.Agrees r' where
  register d e := by
    rw [h.register_error_iff, h'.register_error_iff]
    simp only [perm.mem_iff]
  size := by rw [h.size, h'.size, perm.length_eq]
  suggestions name operands :=
    suggestions_unique ((h.suggestions name operands).of_perm perm) (h'.suggestions name operands)
  resolve name operands := by
    have same : (answering done name operands).Perm (answering reordered name operands) :=
      perm.filter _
    have suggested :=
      suggestions_unique ((h.suggestions name operands).of_perm perm) (h'.suggestions name operands)
    -- by the number of calls that answer to the name and the operands
    match candidates : answering done name operands, same with
    | [], same =>
        rw [h.resolveNone _ _ candidates, h'.resolveNone _ _ same.nil_eq.symm, suggested]
        exact .same _
    | [d], same =>
        rw [h.resolveOne _ _ d candidates, h'.resolveOne _ _ d same.singleton_eq.symm]
        exact .same _
    | d :: e :: rest, same =>
        have several : 2 ≤ (d :: e :: rest).length := Nat.le_add_left 2 rest.length
        rw [h.resolveSeveral _ _ (candidates ▸ several),
          h'.resolveSeveral _ _ (same.length_eq ▸ several)]
        exact .ambiguous name operands (candidates ▸ same.map _)
  resolveAs result name operands := by
    by_cases known : ∃ d ∈ done, d.signature = ⟨result, name, operands⟩
    · rcases known with ⟨d, hd, same⟩
      rw [h.resolveAs d hd _ _ _ same, h'.resolveAs d (perm.mem_iff.1 hd) _ _ _ same]
    · have free : ∀ d ∈ done, d.signature ≠ ⟨result, name, operands⟩ :=
        fun d hd same => known ⟨d, hd, same⟩
      rw [h.resolveAsNone _ _ _ free,
        h'.resolveAsNone _ _ _ fun d hd => free d (perm.mem_iff.2 hd),
        suggestions_unique ((h.suggestions name operands).of_perm perm)
          (h'.suggestions name operands)]

/-- A registry that begins empty is an insert-once map with exact dispatch: its answers are those of
the accepted calls, a refused call leaves no trace, and in any other order the accepted calls are
accepted again and give the same answers. -/
theorem calls_insertOnce (calls : List (Definition K)) :
    ((empty : Registry K).afterCalls calls).Answers ((empty : Registry K).accepted calls) ∧
    (∀ before d after e, calls = before ++ d :: after →
      ((empty : Registry K).afterCalls before).register d = .error e →
      (empty : Registry K).afterCalls (before ++ after) = (empty : Registry K).afterCalls calls) ∧
    ∀ reordered : List (Definition K), reordered.Perm ((empty : Registry K).accepted calls) →
      (empty : Registry K).accepted reordered = reordered ∧
        ((empty : Registry K).afterCalls reordered).Agrees
          ((empty : Registry K).afterCalls calls) := by
  have answers (calls : List (Definition K)) :
      ((empty : Registry K).afterCalls calls).Answers ((empty : Registry K).accepted calls) := by
    have all := answers_definitions (nodup_afterCalls (r := empty) List.nodup_nil calls)
    rwa [definitions_afterCalls] at all
  refine ⟨answers calls, ?_, fun reordered perm => ?_⟩
  · rintro before d after e rfl refused
    exact (afterCalls_refused refused after).symm
  · have distinct := nodup_afterCalls (r := (empty : Registry K)) List.nodup_nil calls
    rw [definitions_afterCalls] at distinct
    have again : (empty : Registry K).accepted reordered = reordered :=
      accepted_of_nodup ((perm.map (·.signature)).nodup_iff.2 distinct)
    exact ⟨again, (answers reordered).agrees (answers calls) (again.symm ▸ perm)⟩

/-- Two lengths with different results and one with another operand: the second call for the first of
them is refused, and the calls might as well come in the opposite order. -/
theorem calls_insertOnce_overloaded :
    let inner : Definition Float := ⟨⟨.scalar, "norm", [.vec3]⟩, {}⟩
    let along : Definition Float := ⟨⟨.vec3, "norm", [.vec3]⟩, {}⟩
    let wide : Definition Float := ⟨⟨.scalar, "norm", [.vec4]⟩, {}⟩
    let r := (empty : Registry Float).afterCalls [inner, along, inner, wide]
    r = (empty : Registry Float).afterCalls [inner, along, wide] ∧
      r.resolve "norm" [.vec4] = .ok wide ∧
      r.resolve "norm" [.vec3] = .error (.severalResults "norm" [.vec3]
        ["Scalar norm(Vec3)", "Vec3 norm(Vec3)"]) ∧
      r.resolve "nor" [] = .error (.noOperator "nor" [] ["norm"]) ∧
      ((empty : Registry Float).afterCalls [wide, along, inner]).Agrees r := by
  intro inner along wide r
  have done : (empty : Registry Float).accepted [inner, along, inner, wide] =
      [inner, along, wide] := rfl
  rcases calls_insertOnce [inner, along, inner, wide] with ⟨answers, refused, reordered⟩
  rw [done] at answers reordered
  have backwards : [wide, along, inner].Perm [inner, along, wide] := [inner, along, wide].reverse_perm
  refine ⟨?_, ?_, ?_, ?_, (reordered _ backwards).2⟩
  · exact (refused [inner, along] inner [wide] _ rfl rfl).symm
  · exact answers.resolveOne "norm" [.vec4] wide rfl
  · exact answers.resolveSeveral "norm" [.vec3] (Nat.le_refl 2)
  · have suggested : r.suggestions "nor" [] = ["norm"] := by
      refine suggestions_unique (answers.suggestions "nor" []) ?_
      refine .misspelt (by decide) (List.pairwise_singleton _ _) (List.nodup_singleton _) fun t => ?_
      constructor
      · intro h
        obtain rfl := List.mem_singleton.1 h
        exact ⟨⟨inner, List.mem_cons_self, rfl⟩, Text.isNear_iff.1 (by decide)⟩
      · rintro ⟨⟨d, hd, rfl⟩, _⟩
        simp only [List.mem_cons, List.not_mem_nil, or_false] at hd
        rcases hd with rfl | rfl | rfl <;> exact List.mem_singleton.2 rfl
    rw [answers.resolveNone "nor" [] rfl, suggested]

end Registry

end SymbolicLinalg
