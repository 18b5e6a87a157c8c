import SymbolicLinalg.Proofs.Emittable
import SymbolicLinalg.Proofs.Phrase

/-!
# Spelling — the texts of standard expressions as phrases

A target writes an operator in one of a few ways: as a negative, with a symbol between two operands, as
an element of its operand, as a group of its operands under a name, or, for the product of a column with
a row, as a product with a transpose.  Which way it is, and with which symbol or name, can be told from
the signature; several operators are written alike, but not over operands of the same shapes.

* `Spelling.spells_text`: the text of an application is spelled by a phrase over those of its operands;
* `Operator.render_eq`: the renderers of operators write their spellings;
* `signature_unique`: the spelling and the shapes of the operands tell the operator.
-/

namespace SymbolicLinalg

/-! ## Ways to write an application -/

/-- The phrases of several texts. -/
theorem Phrase.Spells.all {ps : List Phrase} {texts : List String}
    (h : List.Forall₂ Phrase.Spells ps texts) :
    (∀ p ∈ ps, p.Proper) ∧ ps.map Phrase.chars = texts.map String.toList := by
  induction h with
  | nil => exact ⟨fun p hp => absurd hp List.not_mem_nil, rfl⟩
  | cons first _ ih =>
      refine ⟨List.forall_mem_cons.2 ⟨first.proper, ih.1⟩, ?_⟩
      rw [List.map_cons, List.map_cons, first.chars, ih.2]

inductive Spelling where
  | negative
  | binary (symbol : String)
  | element (bracket : Bracket) (index : String)
  | group (bracket : Bracket) (name : String)
  | outer
  deriving DecidableEq, Repr

namespace Spelling

open Standard

/-- The text of an application, given the texts of its operands. -/
def text : Spelling → List String → String
  | .negative => around "(-" ")"
  | .binary symbol => between symbol
  | .element b index =>
      around "(" (String.ofList b.opening ++ index ++ String.ofList b.closing ++ ")")
  | .group b name => fun operands =>
      name ++ String.ofList b.opening ++ ", ".intercalate operands ++ String.ofList b.closing
  | .outer => fun
      | [u, v] => "(" ++ u ++ " * trans(" ++ v ++ "))"
      | operands => call "outer" operands

/-- The phrase of an application, given the phrases of its operands. -/
def phrase : Spelling → List Phrase → Phrase
  | .negative, [x] => .negative x
  | .binary symbol, [x, y] => .binary symbol x y
  | .element b index, [x] => .element b index x
  | .group b name, x :: rest => .group b name x rest
  | .outer, [u, v] => .binary "*" u (.group .round "trans" v [])
  -- no operator takes as many operands
  | _, _ => .word ""

/-- How many operands there may be. -/
def Takes : Spelling → Nat → Prop
  | .negative, count | .element _ _, count => count = 1
  | .binary _, count | .outer, count => count = 2
  | .group _ _, count => 0 < count

instance : (k : Spelling) → (count : Nat) → Decidable (k.Takes count)
  | .negative, count | .element _ _, count => inferInstanceAs (Decidable (count = 1))
  | .binary _, count | .outer, count => inferInstanceAs (Decidable (count = 2))
  | .group _ _, count => inferInstanceAs (Decidable (0 < count))

/-- The words in it are such that proper phrases come out. -/
def Proper : Spelling → Prop
  | .negative | .outer => True
  | .binary symbol => Phrase.IsSymbol symbol
  | .element b index => Phrase.IsPlace b index
  | .group b name => b ≠ .square ∧ Phrase.IsWord name

instance : (k : Spelling) → Decidable k.Proper
  | .negative | .outer => inferInstanceAs (Decidable True)
  | .binary _ => inferInstanceAs (Decidable (Phrase.IsSymbol _))
  | .element _ _ => inferInstanceAs (Decidable (Phrase.IsPlace _ _))
  | .group _ _ => inferInstanceAs (Decidable (_ ∧ _))

variable {k l : Spelling} {xs ys : List Phrase} {texts : List String}

/-- The text of an application is spelled by a phrase over those of its operands. -/
theorem spells_text (proper : k.Proper) (takes : k.Takes xs.length)
    (operands : List.Forall₂ Phrase.Spells xs texts) : (k.phrase xs).Spells (k.text texts) := by
  cases k with
  | negative =>
      obtain ⟨x, rfl⟩ := List.length_eq_one_iff.1 takes
      rcases operands with _ | ⟨hx, ⟨⟩⟩
      exact ⟨.negative hx.proper, by simp [phrase, text, Phrase.chars, hx.chars, around]⟩
  | binary symbol =>
      obtain ⟨x, y, rfl⟩ := List.length_eq_two.1 takes
      rcases operands with _ | ⟨hx, _ | ⟨hy, ⟨⟩⟩⟩
      refine ⟨.binary proper hx.proper hy.proper, ?_⟩
      simp [phrase, text, Phrase.chars, hx.chars, hy.chars, between]
  | element b index =>
      obtain ⟨x, rfl⟩ := List.length_eq_one_iff.1 takes
      rcases operands with _ | ⟨hx, ⟨⟩⟩
      exact ⟨.element proper hx.proper, by simp [phrase, text, Phrase.chars, hx.chars, around]⟩
  | group b name =>
      obtain ⟨x, rest, rfl⟩ := List.exists_cons_of_length_pos takes
      rcases Phrase.Spells.all operands with ⟨parts, items⟩
      rw [List.forall_mem_cons] at parts
      refine ⟨.group proper.1 proper.2 parts.1 parts.2, ?_⟩
      calc (Phrase.group b name x rest).chars
          = name.toList ++ b.opening ++ (x.chars ++ Phrase.charsAfter rest) ++ b.closing := by
            simp [Phrase.chars]
        _ = name.toList ++ b.opening ++ [',', ' '].intercalate (texts.map String.toList) ++
              b.closing := by
            rw [← items, Phrase.intercalate_chars]
        _ = ((group b name).text texts).toList := by
            simp [text, String.toList_intercalate]
  | outer =>
      obtain ⟨u, v, rfl⟩ := List.length_eq_two.1 takes
      rcases operands with _ | ⟨hu, _ | ⟨hv, ⟨⟩⟩⟩
      refine ⟨.binary (by decide) hu.proper (.group (by decide) (by decide) hv.proper (by simp)), ?_⟩
      simp [phrase, text, Phrase.chars, Phrase.charsAfter, hu.chars, hv.chars, Bracket.opening,
        Bracket.closing]

theorem phrase_ne_word (takes : k.Takes xs.length) (w : String) : k.phrase xs ≠ .word w := by
  cases k with
  | negative | element =>
      obtain ⟨x, rfl⟩ := List.length_eq_one_iff.1 takes
      exact nofun
  | binary | outer =>
      obtain ⟨x, y, rfl⟩ := List.length_eq_two.1 takes
      exact nofun
  | group =>
      obtain ⟨x, rest, rfl⟩ := List.exists_cons_of_length_pos takes
      exact nofun

/-- How a phrase is written, and over which phrases. -/
def read : Phrase → Option (Spelling × List Phrase)
  | .word _ => none
  | .negative x => some (.negative, [x])
  | .binary symbol x y => some (.binary symbol, [x, y])
  | .element b index x => some (.element b index, [x])
  | .group b name x rest => some (.group b name, x :: rest)

theorem read_phrase (takes : k.Takes xs.length) (other : k ≠ .outer) :
    read (k.phrase xs) = some (k, xs) := by
  cases k with
  | negative | element =>
      obtain ⟨x, rfl⟩ := List.length_eq_one_iff.1 takes
      rfl
  | binary =>
      obtain ⟨x, y, rfl⟩ := List.length_eq_two.1 takes
      rfl
  | group =>
      obtain ⟨x, rest, rfl⟩ := List.exists_cons_of_length_pos takes
      rfl
  | outer => exact absurd rfl other

/-- The product of a column with a row is written like other products. -/
theorem phrase_outer (takes : Spelling.outer.Takes xs.length) (hl : l.Takes ys.length)
    (other : l ≠ .outer) (same : Spelling.outer.phrase xs = l.phrase ys) :
    l = .binary "*" ∧ xs.head? = ys.head? := by
  obtain ⟨u, v, rfl⟩ := List.length_eq_two.1 takes
  have found := (congrArg read same).trans (read_phrase hl other)
  rcases Prod.mk.inj (Option.some.inj found) with ⟨rfl, rfl⟩
  exact ⟨rfl, rfl⟩

/-- The phrase tells how it is written and over what, but for the product of a column with a row; then
it tells the first operand. -/
theorem phrase_inj (hk : k.Takes xs.length) (hl : l.Takes ys.length) (same : k.phrase xs = l.phrase ys) :
    (k = l ∧ xs = ys) ∨
      ((k = .outer ∧ l = .binary "*" ∨ k = .binary "*" ∧ l = .outer) ∧ xs.head? = ys.head?) := by
  by_cases first : k = .outer
  · subst first
    by_cases second : l = .outer
    · subst second
      obtain ⟨u, v, rfl⟩ := List.length_eq_two.1 hk
      obtain ⟨u', v', rfl⟩ := List.length_eq_two.1 hl
      cases same
      exact .inl ⟨rfl, rfl⟩
    · rcases phrase_outer hk hl second same with ⟨product, heads⟩
      exact .inr ⟨.inl ⟨rfl, product⟩, heads⟩
  · by_cases second : l = .outer
    · subst second
      rcases phrase_outer hl hk first same.symm with ⟨product, heads⟩
      exact .inr ⟨.inr ⟨product, rfl⟩, heads.symm⟩
    · have found := (read_phrase hk first).symm.trans ((congrArg read same).trans (read_phrase hl second))
      exact .inl (Prod.mk.inj (Option.some.inj found))

end Spelling

/-! ## Operators -/

namespace Standard

/-- The shape and the position that a selector takes a component from. -/
def selected? (s : Signature) : Option (Shape × Nat) :=
  match s.operands with
  | [a] =>
      ((List.range a.size).find? fun i => Recipe.selectorName a i == s.name).map fun i => (a, i)
  | _ => none

/-- The way to write a vector or matrix of given components. -/
def containerSpelling (s : Shape) : Target → Spelling
  | .c => .group .curly s.name
  | .js => .group .round "Float64Array.of"

/-- The name of an operation in those of runtime functions. -/
def operation (name : String) : String :=
  if name = "+" then "add" else if name = "-" then "sub" else if name = "*" then "mul" else name

/-- How a target writes an operator. -/
def spelling (target : Target) (s : Signature) : Spelling :=
  let symbols := ["+", "-", "*", "/"]
  match selected? s, target with
  | some (a, i), .c => .element .round (accessIndex a i .c)
  | some (a, i), .js => .element .square (accessIndex a i .js)
  | none, _ =>
      if s.name = s.result.name then containerSpelling s.result target
      else if s.name = "-" ∧ s.operands.length = 1 then .negative
      else match target with
        | .c =>
            if s.name ∈ symbols then .binary s.name
            else if s.name = "outer" then .outer
            else .group .round s.name
        | .js =>
            -- vectors and matrices have runtime functions
            if ∀ a ∈ s.operands, a = .scalar then
              if s.name ∈ symbols then .binary s.name else .group .round ("Math." ++ s.name)
            else if s.name = "mat44Rotation" then .group .round "Geom3D.mat44Rotation"
            else .group .round (helper (operation s.name) s.operands)

variable {K : Type} [Arithmetic K] [Numeral K]

theorem selected?_selector {s : Shape} (h : s.isScalar = false) {i : Nat} (lt : i < s.size) :
    selected? ⟨.scalar, Recipe.selectorName s i, [s]⟩ = some (s, i) := by
  have all : ∀ i ∈ List.range s.size,
      selected? ⟨.scalar, Recipe.selectorName s i, [s]⟩ = some (s, i) := by
    cases s <;> decide +kernel
  exact all i (List.mem_range.2 lt)

/-- The renderers of operators write their spellings. -/
theorem Operator.render_eq {o : Operator} (plain : IsPlain o.signature.name) (target : Target) :
    (o.definition : Definition K).hooks.render target = some (spelling target o.signature).text := by
  cases o with
  | axisRotation id r h => exact absurd plain (AxisRotation.not_isPlain h)
  | shift | axisScaling | fromHomogeneous => exact absurd (by decide) plain
  | negation | multiplication | division | cosine | sine | axisAngleRotation =>
      cases target <;> rfl
  | addition s h | subtraction s h =>
      cases s with
      | genericScalar => exact absurd rfl h
      | scalar | vec3 | vec4 | mat33 | mat44 => cases target <;> rfl
  | scaling s h | innerProduct s h | constructor s h =>
      cases s with
      | scalar | genericScalar => exact absurd h nofun
      | vec3 | vec4 | mat33 | mat44 => cases target <;> rfl
  | transposition s h | matrixProduct s h =>
      cases s with
      | mat33 | mat44 => cases target <;> rfl
      | scalar | vec3 | vec4 | genericScalar => exact absurd h nofun
  | columnProduct m c h | outerProduct m c h =>
      simp only [IsColumn, List.mem_cons, List.not_mem_nil, or_false, Prod.mk.injEq] at h
      rcases h with ⟨rfl, rfl⟩ | ⟨rfl, rfl⟩
      all_goals cases target <;> rfl
  | selector s h i lt =>
      have closed (opening closing index : String) :
          opening ++ index ++ (closing ++ ")") = opening ++ index ++ closing ++ ")" :=
        (String.append_assoc).symm
      simp only [spelling, signature, selected?_selector h lt]
      cases target with
      | c => exact congrArg (fun closing => some (around "(" closing)) (closed "(" ")" _)
      | js => exact congrArg (fun closing => some (around "(" closing)) (closed "[" "]" _)

theorem proper_container {s : Shape} (h : s.isScalar = false) (target : Target) :
    (containerSpelling s target).Proper ∧ (containerSpelling s target).Takes s.size := by
  cases s with
  | scalar | genericScalar => exact absurd h nofun
  | vec3 | vec4 | mat33 | mat44 => cases target <;> decide

/-! ## Telling operators apart -/

/-- The signatures of the operators that are not lowered. -/
def plainSignatures : List Signature :=
  signatures.filter fun s => s.name ∉ highLevel

theorem Operator.mem_plainSignatures {o : Operator} (plain : IsPlain o.signature.name) :
    o.signature ∈ plainSignatures :=
  List.mem_filter.2 ⟨signature_mem_signatures o, by simpa using plain⟩

theorem proper_spelling (target : Target) :
    ∀ s ∈ plainSignatures, (spelling target s).Proper ∧
      (spelling target s).Takes s.operands.length := by
  cases target <;> decide +kernel

theorem nodup_spelling (target : Target) :
    (plainSignatures.map fun s => (spelling target s, s.operands)).Nodup := by
  cases target <;> decide +kernel

theorem outer_ne_product (target : Target) :
    ∀ s ∈ plainSignatures, spelling target s = .outer →
      ∀ t ∈ plainSignatures, spelling target t = .binary "*" →
        s.operands.head? ≠ t.operands.head? := by
  cases target <;> decide +kernel

/-- What may be taken for a constant is made of scalars. -/
theorem scalar_operands (target : Target) :
    ∀ s ∈ plainSignatures,
      (spelling target s = .negative ∨
        ∃ a ∈ Shape.all, a.isScalar = false ∧ spelling target s = containerSpelling a target) →
      ∀ b ∈ s.operands, b = .scalar := by
  cases target <;> decide +kernel

theorem signature_unique {s t : Signature} (target : Target) (hs : s ∈ plainSignatures)
    (ht : t ∈ plainSignatures) (written : spelling target s = spelling target t)
    (operands : s.operands = t.operands) : s = t :=
  List.inj_on_of_nodup_map (nodup_spelling target) hs ht (Prod.ext written operands)

end Standard

end SymbolicLinalg
