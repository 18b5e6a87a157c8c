import SymbolicLinalg.Proofs.Growth
import SymbolicLinalg.Proofs.Operator

/-!
# Extension — operators beside those of a registry

A registry may be extended by operators of other names or for other operands.  What the names and
the operands of its own operators resolve to stays the same, and so do their hooks.

* `Registry.Extends`: one registry comes from another by such definitions;
* `Registry.Extends.resolve_eq`, `resolveAs_eq`, `hooks_eq`: what was resolved or found before still
  is;
* `Standard.symbolicVector`: an operator beside the standard ones.
-/

namespace SymbolicLinalg

namespace Registry

variable {K : Type} {r extended : Registry K} {name : String} {operands : List Shape}
  {d : Definition K}

/-- Registries that come from `r` by definitions, none of which has the name and the operands of an
operator of `r`. -/
inductive Extends (r : Registry K) : Registry K → Prop where
  | refl : Extends r r
  | define {extended more : Registry K} {d : Definition K} :
      Extends r extended → key d ∉ r.definitions.map key → extended.register d = .ok more →
      Extends r more

theorem key_eq_of_answersTo {e : Definition K}
    (answers : e.signature.answersTo d.signature.name d.signature.operands = true) :
    key e = key d := by
  simpa [Signature.answersTo, key] using answers

/-! ## A single definition -/

theorem register_eq_ok (free : key d ∉ r.definitions.map key) :
    r.register d = .ok ⟨r.definitions ++ [d]⟩ := by
  have absent : r.find? d.signature = none := by
    refine List.find?_eq_none.2 fun e he same => free ?_
    have same : key e = key d := congrArg (fun s => (s.name, s.operands)) (of_decide_eq_true same)
    exact same ▸ List.mem_map_of_mem he
  rw [register, absent]
  rfl

theorem extends_of_free (free : key d ∉ r.definitions.map key) :
    r.Extends ⟨r.definitions ++ [d]⟩ :=
  .define .refl free (register_eq_ok free)

/-- An operator of a name and operands that were free is what they resolve to. -/
theorem resolve_of_free (free : key d ∉ r.definitions.map key) :
    (Registry.mk (r.definitions ++ [d])).resolve d.signature.name d.signature.operands = .ok d := by
  have none : r.definitions.filter (·.signature.answersTo d.signature.name d.signature.operands) =
      [] :=
    List.filter_eq_nil_iff.2 fun e he answers =>
      free (key_eq_of_answersTo answers ▸ List.mem_map_of_mem he)
  have itself : d.signature.answersTo d.signature.name d.signature.operands = true := by
    simp [Signature.answersTo]
  rw [resolve_eq_ok_iff, candidates, List.filter_append, none, List.filter_singleton, itself]
  rfl

/-! ## What was there before -/

namespace Extends

/-- The operators of the extended registry: those that were there come first. -/
theorem exists_added (h : r.Extends extended) :
    ∃ added, extended.definitions = r.definitions ++ added ∧
      ∀ d ∈ added, key d ∉ r.definitions.map key := by
  induction h with
  | refl => exact ⟨[], (List.append_nil _).symm, fun d hd => absurd hd List.not_mem_nil⟩
  | @define extended more d _ free registered ih =>
      rcases ih with ⟨added, parts, others⟩
      refine ⟨added ++ [d], ?_, List.forall_mem_append.2 ⟨others, List.forall_mem_singleton.2 free⟩⟩
      rw [definitions_of_register registered, parts, List.append_assoc]

/-- No other operator has the name and the operands of one that was there. -/
theorem candidates_eq (h : r.Extends extended) (hd : d ∈ r.definitions) :
    extended.candidates d.signature.name d.signature.operands =
      r.candidates d.signature.name d.signature.operands := by
  rcases h.exists_added with ⟨added, parts, others⟩
  have none : added.filter (·.signature.answersTo d.signature.name d.signature.operands) = [] :=
    List.filter_eq_nil_iff.2 fun e he answers =>
      others e he (key_eq_of_answersTo answers ▸ List.mem_map_of_mem hd)
  rw [candidates, parts, List.filter_append, none, List.append_nil, candidates]

theorem resolve_eq (h : r.Extends extended) (found : r.resolve name operands = .ok d) :
    extended.resolve name operands = .ok d := by
  rcases candidate_of_resolve_eq_ok found with ⟨hd, rfl, rfl⟩
  rw [resolve_eq_ok_iff, h.candidates_eq hd]
  exact resolve_eq_ok_iff.1 found

theorem find?_eq (h : r.Extends extended) {s : Signature} (found : r.find? s = some d) :
    extended.find? s = some d := by
  rcases h.exists_added with ⟨added, parts, _⟩
  rw [find?] at found
  rw [find?, parts, List.find?_append, found, Option.some_or]

theorem resolveAs_eq (h : r.Extends extended) {result : Shape}
    (found : r.resolveAs result name operands = .ok d) :
    extended.resolveAs result name operands = .ok d := by
  rw [resolveAs] at found ⊢
  cases known : r.find? ⟨result, name, operands⟩ with
  | none =>
      rw [known] at found
      cases found
  | some e =>
      rw [known] at found
      rwa [h.find?_eq known]

theorem hooks_eq (h : r.Extends extended) {s : Signature} (known : r.Knows s) :
    extended.hooks s = r.hooks s := by
  rcases known with ⟨d, hd, same⟩
  cases found : r.find? s with
  | none =>
      have absent := List.find?_eq_none.1 found d hd
      simp [same] at absent
  | some e => rw [hooks, hooks, h.find?_eq found, found]

end Extends

end Registry

namespace Standard

variable {K : Type}

/-- An operator that has the name of a constructor, but takes symbolic reals. -/
def symbolicVector : Definition K where
  signature := ⟨.vec3, "Vec3", [.genericScalar, .genericScalar, .genericScalar]⟩

variable [Arithmetic K] [Numeral K]

/-- The standard operators and that one. -/
def withSymbolicVector : Registry K :=
  ⟨Registry.standard.definitions ++ [symbolicVector]⟩

theorem symbolicVector_free : Registry.key (symbolicVector : Definition K) ∉
    (Registry.standard : Registry K).definitions.map Registry.key := by
  rw [map_key_standard]
  change ("Vec3", List.replicate 3 Shape.genericScalar) ∉ _
  decide +kernel

theorem extends_withSymbolicVector :
    (Registry.standard : Registry K).Extends withSymbolicVector :=
  Registry.extends_of_free symbolicVector_free

end Standard

end SymbolicLinalg
