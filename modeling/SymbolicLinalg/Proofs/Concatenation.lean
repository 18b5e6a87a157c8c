import SymbolicLinalg.Proofs.Denotation
import SymbolicLinalg.Proofs.Rendering

/-!
# Concatenation — the standard renderers concatenate

A renderer concatenates if its text is a template over the texts of the operands.  Fixed texts and
single operands are concatenations, and so is whatever is appended or separated from concatenations;
the renderers of the standard operators are made of nothing else.
-/

namespace SymbolicLinalg

/-- From that many texts the function makes a template over them. -/
def Concatenates (count : Nat) (f : List String → String) : Prop :=
  ∃ t : Template, ∀ texts, texts.length = count → f texts = t.fill fun place => texts.getD place ""

namespace Concatenates

variable {count : Nat} {f g : List String → String} {functions : List (List String → String)}

theorem fixed (text : String) : Concatenates count fun _ => text :=
  ⟨[.fixed text], fun _ _ => by simp [Template.fill]⟩

theorem operand (place : Nat) : Concatenates count fun texts => texts.getD place "" :=
  ⟨[.hole place], fun _ _ => by simp [Template.fill]⟩

theorem append (hf : Concatenates count f) (hg : Concatenates count g) :
    Concatenates count fun texts => f texts ++ g texts := by
  rcases hf with ⟨t, ht⟩
  rcases hg with ⟨u, hu⟩
  refine ⟨t ++ u, fun texts length => ?_⟩
  rw [Template.fill_append, ← ht texts length, ← hu texts length]

theorem congr (h : Concatenates count g)
    (same : ∀ texts : List String, texts.length = count → f texts = g texts) :
    Concatenates count f := by
  rcases h with ⟨t, ht⟩
  exact ⟨t, fun texts length => (same texts length).trans (ht texts length)⟩

/-- Concatenations with a text between each two of them. -/
theorem separated (separator : String) (h : ∀ f ∈ functions, Concatenates count f) :
    Concatenates count fun texts => separator.intercalate (functions.map (· texts)) := by
  induction functions with
  | nil => exact fixed ""
  | cons f rest ih =>
      rw [List.forall_mem_cons] at h
      cases rest with
      | nil => exact h.1.congr fun texts _ => String.intercalate_singleton
      | cons g rest =>
          refine ((h.1.append (fixed separator)).append (ih h.2)).congr fun texts _ => ?_
          rw [List.map_cons, List.map_cons, String.intercalate_cons_cons]

/-- The operands with a text between each two of them. -/
theorem operands (separator : String) : Concatenates count separator.intercalate := by
  have parts : ∀ f ∈ (List.range count).map fun place (texts : List String) => texts.getD place "",
      Concatenates count f := by
    intro f hf
    rcases List.mem_map.1 hf with ⟨place, _, rfl⟩
    exact operand place
  refine (separated separator parts).congr fun texts length => congrArg _ ?_
  subst length
  rw [List.map_map]
  refine List.ext_getElem (by simp) fun i before _ => ?_
  simp [before]

end Concatenates

namespace Standard

variable {K : Type} [Arithmetic K] [Numeral K] {count : Nat} {items : List String → List String}

/-! ## Forms of source text -/

theorem concatenates_between (symbol : String) : Concatenates count (between symbol) :=
  ((Concatenates.fixed "(").append (.operands _)).append (.fixed ")")

theorem concatenates_around (opening closing : String) :
    Concatenates count (around opening closing) :=
  ((Concatenates.fixed opening).append (.operands _)).append (.fixed closing)

section

variable (h : Concatenates count fun texts => ", ".intercalate (items texts))

include h

theorem concatenates_call (function : String) :
    Concatenates count fun texts => call function (items texts) :=
  (((Concatenates.fixed function).append (.fixed "(")).append h).append (.fixed ")")

theorem concatenates_container (target : Target) (s : Shape) :
    Concatenates count fun texts => target.container s (items texts) :=
  match target with
  | .c => (((Concatenates.fixed s.name).append (.fixed " \x7b ")).append h).append (.fixed " \x7d")
  | .js => ((Concatenates.fixed "Float64Array.of(").append h).append (.fixed ")")

end

theorem concatenates_cellText (target : Target) (cell : Cell) :
    Concatenates count fun texts =>
      AxisRotation.cellText (K := K) target (", ".intercalate texts) cell := by
  have called (function : String) :
      Concatenates count fun texts => call function [", ".intercalate texts] :=
    concatenates_call ((Concatenates.operands ", ").congr fun _ _ => String.intercalate_singleton) _
  cases cell with
  | zero | one => exact .fixed _
  | cos | sin => exact called _
  | negSin => exact ((Concatenates.fixed "(-").append (called _)).append (.fixed ")")

theorem concatenates_rotation (r : AxisRotation) (target : Target) :
    Concatenates count (r.text K target) := by
  refine concatenates_container ?_ target r.shape
  have cells : ∀ f ∈ r.cells.map fun cell (texts : List String) =>
      AxisRotation.cellText (K := K) target (", ".intercalate texts) cell, Concatenates count f := by
    intro f hf
    rcases List.mem_map.1 hf with ⟨cell, _, rfl⟩
    exact concatenates_cellText target cell
  refine (Concatenates.separated ", " cells).congr fun texts _ => ?_
  rw [List.map_map]
  rfl

/-! ## Standard renderers -/

theorem concatenates_rendering {c js render : List String → String} {target : Target}
    (hc : Concatenates count c) (hjs : Concatenates count js)
    (hook : rendering c js target = some render) : Concatenates count render := by
  cases target with
  | c => exact Option.some.inj hook ▸ hc
  | js => exact Option.some.inj hook ▸ hjs

/-- Scalars have an operator in either target, other shapes a function in one of them. -/
theorem concatenates_linearRendering {s : Shape} {symbol operation : String}
    {render : List String → String} {target : Target}
    (hook : linearRendering s symbol operation target = some render) :
    Concatenates count render := by
  refine concatenates_rendering (concatenates_between symbol) ?_ hook
  split
  · exact concatenates_between symbol
  · exact concatenates_call (.operands ", ") _

theorem Operator.render_concatenates (o : Operator) {target : Target}
    {render : List String → String}
    (hook : (o.definition : Definition K).hooks.render target = some render) :
    Concatenates o.signature.operands.length render := by
  have called (function : String) : Concatenates o.signature.operands.length (call function) :=
    concatenates_call (.operands ", ") function
  cases o with
  | addition | subtraction => exact concatenates_linearRendering hook
  | negation | selector =>
      exact concatenates_rendering (concatenates_around _ _) (concatenates_around _ _) hook
  | multiplication | division =>
      exact concatenates_rendering (concatenates_between _) (concatenates_between _) hook
  | cosine | sine | innerProduct | transposition | axisAngleRotation =>
      exact concatenates_rendering (called _) (called _) hook
  | scaling | matrixProduct | columnProduct =>
      exact concatenates_rendering (concatenates_between _) (called _) hook
  | constructor s =>
      have listed (target : Target) : Concatenates (List.replicate s.size Shape.scalar).length
          (target.container s) :=
        concatenates_container (.operands ", ") target s
      exact concatenates_rendering (listed .c) (listed .js) hook
  | outerProduct =>
      refine concatenates_rendering ?_ (called _) hook
      -- the product of a column and a row is written with an operator
      have product : Concatenates 2 fun texts : List String =>
          "(" ++ texts.getD 0 "" ++ " * trans(" ++ texts.getD 1 "" ++ "))" :=
        ((((Concatenates.fixed "(").append (.operand 0)).append (.fixed " * trans(")).append
          (.operand 1)).append (.fixed "))")
      refine product.congr fun texts length => ?_
      match texts, length with
      | [u, v], _ => rfl
  | axisRotation id r =>
      change (if r.rendered then rendering (r.text K .c) (r.text K .js) else fun _ => none) target =
        some render at hook
      split at hook
      · exact concatenates_rendering (concatenates_rotation r .c) (concatenates_rotation r .js) hook
      · exact absurd hook nofun
  | shift | axisScaling | fromHomogeneous => exact absurd hook nofun

theorem Operator.exists_template (o : Operator) {target : Target}
    (renders : (Registry.standard : Registry K).Renders target o.signature) :
    ∃ t, (Registry.standard : Registry K).Concatenates target o.signature t
      o.signature.operands.length := by
  rw [Registry.Renders, o.hooks_eq] at renders
  rcases Option.isSome_iff_exists.1 renders with ⟨render, hook⟩
  rcases o.render_concatenates hook with ⟨t, concatenates⟩
  refine ⟨t, fun texts length => ?_⟩
  rw [Registry.renderer, o.hooks_eq, hook]
  exact concatenates texts length

/-- Expressions of standard operators that have renderers have templates. -/
theorem exists_templates (K : Type) [Arithmetic K] [Numeral K] (target : Target) :
    ∃ templates : Signature → Template, ∀ n : Node K, Typed n →
      n.AppliesOnly ((Registry.standard : Registry K).Renders target) →
        n.Concatenating .standard target templates := by
  have each (s : Signature) : ∃ t : Template, (∃ o : Operator, o.signature = s) →
      (Registry.standard : Registry K).Renders target s →
        (Registry.standard : Registry K).Concatenates target s t s.operands.length := by
    by_cases rendered : (∃ o : Operator, o.signature = s) ∧
        (Registry.standard : Registry K).Renders target s
    · rcases rendered with ⟨⟨o, rfl⟩, renders⟩
      rcases o.exists_template renders with ⟨t, concatenates⟩
      exact ⟨t, fun _ _ => concatenates⟩
    · exact ⟨[], fun known renders => absurd ⟨known, renders⟩ rendered⟩
  choose templates concatenates using each
  refine ⟨templates, fun n typed renders id s operands below => ?_⟩
  rcases Typed.operator (typed.of_reaches below) with ⟨o, rfl, shapes, _⟩
  rw [← operands.length_map Node.shape, shapes]
  exact concatenates o.signature ⟨o, rfl⟩ (renders id _ operands below)

end Standard

end SymbolicLinalg
