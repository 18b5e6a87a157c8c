import SymbolicLinalg.Proofs.Emittable
import SymbolicLinalg.Proofs.Folded

/-!
# Compilation — expressions that are built and lowered

Expressions are built by applying operators and are lowered, one at a time or several in one pass, in
any order; what has been lowered may be built on and lowered again.

* `Registry.Compiles`: what has been built, and what has been lowered;
* `Standard.compiled`: the invariant, over the standard operators;
* `Standard.compiles_plain`: what is built of plain operators is its own lowered form.
-/

namespace SymbolicLinalg

variable {K : Type} {given es ms : List (Node K)} {n m : Node K} {w w' : Workspace K}

/-- Expressions that have been built, and forms to which some of them have been lowered, by the pass
that is under way or by passes before it. -/
inductive Registry.Compiles [Arithmetic K] [Numeral K] (r : Registry K) :
    List (Node K) → List (Node K) → Workspace K × Memo K → Prop where
  | start (w : Workspace K) : r.Compiles [] [] (w, ∅)
  | build {es ms : List (Node K)} {w w' : Workspace K} {memo : Memo K} {c : Construction K}
      {n : Node K} :
      r.Compiles es ms (w, memo) → c.Complete → c.Draws Registry.anyName es →
      (r.make c).runIn w = (.ok n, w') → r.Compiles (n :: es) ms (w', memo)
  | lower {es ms : List (Node K)} {s s' : Workspace K × Memo K} {e m : Node K} :
      r.Compiles es ms s → Node.Below es e → (r.lowerNext e).run.run s = (.ok m, s') →
      r.Compiles (m :: es) (m :: ms) s'
  | renew {es ms : List (Node K)} {w : Workspace K} {memo : Memo K} :
      r.Compiles es ms (w, memo) → r.Compiles es ms (w, ∅)
  | later {es ms : List (Node K)} {w w' : Workspace K} {memo : Memo K} :
      r.Compiles es ms (w, memo) → w.nextId ≤ w'.nextId → r.Compiles es ms (w', memo)

/-! ## What is around -/

namespace Stock

variable {names : String → Prop}

/-- What lies below the nodes that are around may be added to the others. -/
theorem beside (h : Stock names given es w.nextId) (below : Node.Below (given ++ es) n) :
    Stock names given (n :: es) w.nextId := by
  have parts : ∀ k ∈ given ++ n :: es, Node.Below (given ++ es) k := by
    intro k hk
    rcases List.mem_cons.1 (List.perm_middle.subset hk) with rfl | hk
    · exact below
    · exact .of_mem hk
  exact ⟨h.coherent.of_below parts, fun k hk => h.older_of_below (parts k hk), h.only⟩

/-- What has been built over the others is one of them. -/
theorem build [Arithmetic K] [Numeral K] {r : Registry K} {c : Construction K}
    (optimize : r.Draws Registry.anyName []) (h : Stock names given es w.nextId)
    (draws : c.Draws Registry.anyName es) (run : (r.make c).runIn w = (.ok n, w')) :
    Stock names given (n :: es) w'.nextId := by
  have around : Stock Registry.anyName (given ++ es) [] w.nextId := by
    refine ⟨?_, ?_, fun _ _ _ _ _ _ => trivial⟩
    · rw [List.append_nil]
      exact h.coherent
    · rw [List.append_nil]
      exact h.older
  have grown := (Registry.make_grows optimize c (given ++ es) [] (List.nil_subset _)
    (draws.mono (List.subset_append_right given es))).of_runIn_eq_ok around run
  have parts : given ++ n :: es ⊆ (n :: (given ++ es)) ++ [] := by
    rw [List.append_nil]
    exact List.perm_middle.subset
  exact ⟨grown.coherent.of_subset parts, fun k hk => grown.older k (parts hk), h.only⟩

end Stock

namespace Standard

variable [Arithmetic K] [Numeral K] {s : Workspace K × Memo K} {ρ : Assignment K}

/-! ## The invariant -/

/-- What has been built or lowered is well typed and folded, and what has been lowered is made of plain
operators. -/
structure Compiled (ρ : Assignment K) (es ms : List (Node K)) (s : Workspace K × Memo K) : Prop where
  typed : ∀ n ∈ es, Typed n
  folded : ∀ n ∈ es, Folded n
  lowered : ∀ m ∈ ms, m ∈ es ∧ Primitive m
  plainForms : ∃ given, Recalls (loweredTo False ρ) IsPlain given es s
  foldedForms : ∃ given, Recalls foldedForm Registry.anyName given es s

theorem Compiled.start (ρ : Assignment K) (w : Workspace K) : Compiled ρ [] [] (w, ∅) where
  typed := nofun
  folded := nofun
  lowered := nofun
  plainForms := ⟨[], .empty ⟨nofun, nofun, nofun⟩⟩
  foldedForms := ⟨[], .empty ⟨nofun, nofun, nofun⟩⟩

theorem Compiled.build {memo : Memo K} {c : Construction K} (h : Compiled ρ es ms (w, memo))
    (complete : c.Complete) (draws : c.Draws Registry.anyName es)
    (run : ((Registry.standard : Registry K).make c).runIn w = (.ok n, w')) :
    Compiled ρ (n :: es) ms (w', memo) := by
  have optimize : (Registry.standard : Registry K).Draws Registry.anyName [] := standard_draws trivial
  have typed := (Registry.make_typed optimize standard_completes c es complete draws
    h.typed).of_runIn_eq_ok trivial run
  have folded := (make_folded c es draws h.folded).of_runIn_eq_ok trivial run
  have more := List.subset_cons_self n es
  refine ⟨List.forall_mem_cons.2 ⟨typed, h.typed⟩, List.forall_mem_cons.2 ⟨folded, h.folded⟩,
    fun m hm => (h.lowered m hm).imp_left fun hm => more hm, ?_, ?_⟩
  · rcases h.plainForms with ⟨given, recalls⟩
    exact ⟨given, recalls.beside more (recalls.stock.build optimize draws run)⟩
  · rcases h.foldedForms with ⟨given, recalls⟩
    exact ⟨given, recalls.beside more (recalls.stock.build optimize draws run)⟩

theorem Compiled.lower {s' : Workspace K × Memo K} {e : Node K} (h : Compiled ρ es ms s)
    (below : Node.Below es e)
    (run : ((Registry.standard : Registry K).lowerNext e).run.run s = (.ok m, s')) :
    Compiled ρ (m :: es) (m :: ms) s' := by
  have typed : Typed e := Registry.wellTyped_of_below h.typed below
  have folded : Folded e := folded_of_below h.folded below
  have around (given : List (Node K)) := below.mono (List.subset_append_right given es)
  have more := List.subset_cons_self m es
  rcases h.plainForms with ⟨plain, recalls⟩
  rcases h.foldedForms with ⟨scalars, recalls'⟩
  rcases Lowers.of_run (lowers_typed typed False.elim False.elim) (List.nil_subset plain) recalls
    (around plain) run with ⟨plain, _, form, recalls⟩
  rcases Lowers.of_run (lowerNext_folded folded) (List.nil_subset scalars) recalls' (around scalars)
    run with ⟨scalars, _, form', recalls'⟩
  have primitive : Primitive m := recalls.stock.only_of_below form.below
  have here := form.below.mono (List.subset_append_left plain es)
  have here' := form'.below.mono (List.subset_append_left scalars es)
  refine ⟨List.forall_mem_cons.2 ⟨form.denotes.typed, h.typed⟩,
    List.forall_mem_cons.2 ⟨form'.folded, h.folded⟩, ?_, ?_, ?_⟩
  · refine List.forall_mem_cons.2 ⟨⟨List.mem_cons_self, primitive⟩, fun k hk => ?_⟩
    exact (h.lowered k hk).imp_left fun hk => more hk
  · exact ⟨plain, recalls.beside more (recalls.stock.beside here)⟩
  · exact ⟨scalars, recalls'.beside more (recalls'.stock.beside here')⟩

theorem Compiled.renew {memo : Memo K} (h : Compiled ρ es ms (w, memo)) : Compiled ρ es ms (w, ∅) :=
  { h with
    plainForms := h.plainForms.imp fun _ recalls => .empty recalls.stock
    foldedForms := h.foldedForms.imp fun _ recalls => .empty recalls.stock }

theorem Compiled.later {memo : Memo K} (h : Compiled ρ es ms (w, memo)) (later : w.nextId ≤ w'.nextId) :
    Compiled ρ es ms (w', memo) :=
  { h with
    plainForms := h.plainForms.imp fun _ recalls => recalls.later later
    foldedForms := h.foldedForms.imp fun _ recalls => recalls.later later }

/-- The invariant holds of whatever is built and lowered. -/
theorem compiled (ρ : Assignment K) (compiles : (Registry.standard : Registry K).Compiles es ms s) :
    Compiled ρ es ms s := by
  induction compiles with
  | start w => exact .start ρ w
  | build _ complete draws run ih => exact ih.build complete draws run
  | lower _ below run ih => exact ih.lower below run
  | renew _ ih => exact ih.renew
  | later _ later ih => exact ih.later later

/-- Each form that has been lowered is coherent. -/
theorem Compiled.coherent (h : Compiled ρ es ms s) (hm : m ∈ ms) : Node.Coherent [m] := by
  rcases h.plainForms with ⟨given, recalls⟩
  have among := List.mem_append_right given (h.lowered m hm).1
  exact recalls.stock.coherent.of_subset (List.cons_subset.2 ⟨among, List.nil_subset _⟩)

/-! ## Plain expressions -/

theorem normal_of_primitive (typed : Typed n) (primitive : Primitive n) :
    (Registry.standard : Registry K).Normal n := by
  intro id s operands below
  rcases primitive.lowest typed id s operands below with ⟨replace, expand⟩
  refine ⟨replace, fun hook present => ?_⟩
  exact absurd (expand.symm.trans present) nofun

/-- What has been built of plain operators is its own lowered form. -/
theorem compiles_plain (compiles : (Registry.standard : Registry K).Compiles es ms (w, ∅))
    (hn : n ∈ es) (primitive : Primitive n) :
    ∃ s, (Registry.standard : Registry K).Compiles (n :: es) (n :: ms) s := by
  have some_assignment : Assignment K := fun _ => .zero .scalar
  have invariant := compiled some_assignment compiles
  have below : Node.Below es n := .of_mem hn
  have normal := normal_of_primitive (invariant.typed n hn) primitive
  rcases invariant.foldedForms with ⟨given, recalls⟩
  have kept := lowerNext_eq_ok standard_functional (List.nil_subset given) (.empty recalls.stock)
    (below.mono (List.subset_append_right given es)) normal
  exact ⟨_, compiles.lower below (Prod.ext kept rfl)⟩

end Standard

end SymbolicLinalg
