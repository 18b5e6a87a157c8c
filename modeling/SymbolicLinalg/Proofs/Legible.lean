import SymbolicLinalg.Numeral
import SymbolicLinalg.Proofs.Phrase
import SymbolicLinalg.Text.Alphanumeric

/-!
# Legible — numerals that cannot be taken for names

The code of a component is the name of a special number, or digits with a point or an exponent; it is
in parentheses with a minus sign, or else without one.  So it is a word or the negative of a word, and
the word is not just a number and not the name of a variable.

* `Numeral.Legible`: what is asked of the code of components; doubles have it;
* `IsIdentifier`: the names of variables.
-/

namespace SymbolicLinalg

namespace Numeral

/-- There is nothing but what decimals are made of. -/
def OfDecimals (text : String) : Prop :=
  ∀ c ∈ text.toList, c.isDigit = true ∨ c ∈ ['.', 'e', '-']

instance (text : String) : Decidable (OfDecimals text) :=
  inferInstanceAs (Decidable (∀ c ∈ text.toList, _))

/-- Digits with a point or an exponent. -/
structure IsDecimal (body : String) : Prop where
  begins : ∃ c ∈ body.toList.head?, c.isDigit = true
  chars : OfDecimals body
  marked : ∃ c ∈ body.toList, c = '.' ∨ c = 'e'

/-- What a component may be written with, apart from its sign. -/
def IsBody (target : Target) (body : String) : Prop :=
  body = notANumberName target ∨ body = infinityName target ∨ IsDecimal body

/-- The code of components consists of special names and decimals, in parentheses if it is negative. -/
class Legible (K : Type) [Numeral K] : Prop where
  code : ∀ (target : Target) (x : K), ∃ body, IsBody target body ∧
    (Numeral.code target x = body ∨ Numeral.code target x = "(-" ++ body ++ ")")

theorem IsDecimal.isWord {body : String} (h : IsDecimal body) : Phrase.IsWord body := by
  have plain : ∀ c ∈ ['.', 'e', '-'], c ∉ Phrase.delimiters := by decide
  refine ⟨fun c hc => ?_, ?_, ?_⟩
  · rcases h.chars c hc with digit | other
    · exact Phrase.digit_plain digit
    · exact plain c other
  · rcases h.begins with ⟨c, hc, digit⟩
    intro minus
    obtain rfl := Option.some.inj (hc.symm.trans minus)
    exact absurd digit (by decide)
  · rcases h.marked with ⟨c, hc, rfl | rfl⟩
    · exact ⟨_, hc, by decide⟩
    · exact ⟨_, hc, by decide⟩

theorem IsBody.isWord {target : Target} {body : String} (h : IsBody target body) :
    Phrase.IsWord body := by
  rcases h with rfl | rfl | h
  · cases target <;> decide
  · cases target <;> decide
  · exact h.isWord

/-! ## Doubles -/

theorem OfDecimals.append {a b : String} (ha : OfDecimals a) (hb : OfDecimals b) :
    OfDecimals (a ++ b) := by
  intro c hc
  rw [String.toList_append] at hc
  exact (List.mem_append.1 hc).elim (ha c) (hb c)

theorem ofDecimals_digits {digits : List Char} (h : ∀ c ∈ digits, c.isDigit = true) :
    OfDecimals (String.ofList digits) := by
  intro c hc
  rw [String.toList_ofList] at hc
  exact .inl (h c hc)

/-- Digits go on to a decimal by whatever has a point or an exponent in it. -/
theorem isDecimal_append {digits : List Char} {rest : String} (nonempty : digits ≠ [])
    (all : ∀ c ∈ digits, c.isDigit = true) (chars : OfDecimals rest) {mark : Char}
    (marked : mark ∈ rest.toList) (isMark : mark = '.' ∨ mark = 'e') :
    IsDecimal (String.ofList digits ++ rest) where
  begins := by
    rcases List.exists_cons_of_ne_nil nonempty with ⟨d, ds, rfl⟩
    exact ⟨d, by simp, all d List.mem_cons_self⟩
  chars := (ofDecimals_digits all).append chars
  marked := ⟨mark, by simp [marked], isMark⟩

theorem isDigit_of_mem_digits (s : Decimal.Scientific) : ∀ c ∈ s.digits, c.isDigit = true :=
  fun _ hc => Nat.isDigit_of_mem_toDigits (by decide) (by decide) hc

theorem ofDecimals_zeros (n : Nat) : OfDecimals (Decimal.zeros n) := by
  refine ofDecimals_digits fun c hc => ?_
  obtain rfl := List.eq_of_mem_replicate hc
  decide

theorem ofDecimals_toString (n : Int) : OfDecimals (toString n) := by
  have natural (n : Nat) : OfDecimals n.repr := by
    intro c hc
    rw [Nat.toList_repr] at hc
    exact .inl (Nat.isDigit_of_mem_toDigits (by decide) (by decide) hc)
  cases n with
  | ofNat n => exact natural n
  | negSucc n => exact OfDecimals.append (a := "-") (by decide) (natural (n + 1))

theorem isDecimal_positional (s : Decimal.Scientific) : IsDecimal (s.positional ".0") := by
  have digits := isDigit_of_mem_digits s
  have nonempty : s.digits ≠ [] := Nat.toDigits_ne_nil
  rw [Decimal.Scientific.positional]
  split
  · -- a whole number
    rw [String.append_assoc]
    exact isDecimal_append nonempty digits ((ofDecimals_zeros _).append (by decide))
      (by simp : '.' ∈ _) (.inl rfl)
  · split
    · -- the point falls between two digits
      rename_i places
      have first : s.digits.take (s.digits.length - (-s.exponent).toNat) ≠ [] := by
        rw [← List.length_pos_iff, List.length_take]
        omega
      rw [String.append_assoc]
      exact isDecimal_append first (fun c hc => digits c (List.mem_of_mem_take hc))
        (OfDecimals.append (by decide)
          (ofDecimals_digits fun c hc => digits c (List.mem_of_mem_drop hc)))
        (by simp : '.' ∈ _) (.inl rfl)
    · have zero : "0." = String.ofList ['0'] ++ "." := by decide
      rw [zero, String.append_assoc, String.append_assoc]
      exact isDecimal_append (by simp) (by decide)
        (OfDecimals.append (by decide) ((ofDecimals_zeros _).append (ofDecimals_digits digits)))
        (by simp : '.' ∈ _) (.inl rfl)

theorem isDecimal_exponential (s : Decimal.Scientific) : IsDecimal s.exponential := by
  have digits := isDigit_of_mem_digits s
  have nonempty : s.digits ≠ [] := Nat.toDigits_ne_nil
  have first : s.digits.take 1 ≠ [] := by simpa using nonempty
  have fraction : OfDecimals
      (if (s.digits.drop 1).isEmpty then "" else "." ++ String.ofList (s.digits.drop 1)) := by
    split
    · decide
    · exact OfDecimals.append (by decide)
        (ofDecimals_digits fun c hc => digits c (List.mem_of_mem_drop hc))
  rw [Decimal.Scientific.exponential, String.append_assoc, String.append_assoc]
  exact isDecimal_append first (fun c hc => digits c (List.mem_of_mem_take hc))
    (fraction.append (OfDecimals.append (by decide) (ofDecimals_toString _)))
    (by simp : 'e' ∈ _) (.inr rfl)

/-- A body with a minus sign is in parentheses. -/
theorem signed_cases (negative : Bool) (body : String) :
    let text := Decimal.signed negative body
    let code := if negative then "(" ++ text ++ ")" else text
    code = body ∨ code = "(-" ++ body ++ ")" := by
  cases negative with
  | false => exact .inl rfl
  | true =>
      have joined : "(" ++ ("-" ++ body) = "(-" ++ body := String.append_assoc.symm
      exact .inr (congrArg (· ++ ")") joined)

instance : Legible Float where
  code target x := by
    change ∃ body, _ ∧ (floatCode target x = _ ∨ floatCode target x = _)
    rw [floatCode, Decimal.isSigned, Decimal.Style.text]
    cases Decimal.read x with
    | notANumber => exact ⟨_, .inl rfl, .inl rfl⟩
    | infinite negative => exact ⟨_, .inr (.inl rfl), signed_cases negative _⟩
    | zero negative =>
        have zero : IsDecimal "0.0" := ⟨⟨'0', rfl, rfl⟩, by decide, ⟨'.', by decide, .inl rfl⟩⟩
        exact ⟨_, .inr (.inr zero), signed_cases negative _⟩
    | finite negative magnitude =>
        have finite : IsDecimal ((Decimal.shortest magnitude).layout Decimal.compactStyle) := by
          rw [Decimal.Scientific.layout]
          split
          · exact isDecimal_positional _
          · exact isDecimal_exponential _
        exact ⟨_, .inr (.inr finite), signed_cases negative _⟩

end Numeral

/-! ## Numerals as phrases -/

section

variable {K : Type} [Numeral K] [Numeral.Legible K]

/-- The phrase of a component. -/
inductive Phrase.IsNumeral (target : Target) : Phrase → Prop where
  | positive {body : String} : Numeral.IsBody target body → IsNumeral target (.word body)
  | negative {body : String} : Numeral.IsBody target body → IsNumeral target (.negative (.word body))

theorem Numeral.spells_code (target : Target) (x : K) :
    ∃ p : Phrase, p.IsNumeral target ∧ p.Spells (Numeral.code target x) := by
  rcases Legible.code target x with ⟨body, isBody, same | same⟩
  · rw [same]
    exact ⟨_, .positive isBody, .word isBody.isWord, by rw [Phrase.chars]⟩
  · rw [same]
    exact ⟨_, .negative isBody, .negative (.word isBody.isWord), by simp [Phrase.chars]⟩

end

/-! ## Identifiers -/

/-- The names of special numbers. -/
def Numeral.specialNames : List String :=
  Target.all.flatMap fun target => [notANumberName target, infinityName target]

/-- A name of letters, digits and underscores, not with a digit first, and not that of a special
number. -/
structure IsIdentifier (name : String) : Prop where
  nonempty : name ≠ ""
  chars : ∀ c ∈ name.toList, Text.isAlphanumeric c = true ∨ c = '_'
  begins : ∀ c ∈ name.toList.head?, c.isDigit = false
  ordinary : name ∉ Numeral.specialNames

theorem IsIdentifier.isWord {name : String} (h : IsIdentifier name) : Phrase.IsWord name := by
  have separate : ∀ c ∈ '-' :: Phrase.delimiters, Text.isAlphanumeric c = false ∧ c ≠ '_' := by
    decide +kernel
  have apart (c : Char) (hc : c ∈ name.toList) : c ∉ '-' :: Phrase.delimiters := by
    intro listed
    rcases h.chars c hc with letter | rfl
    · exact absurd letter (by simp [(separate c listed).1])
    · exact (separate _ listed).2 rfl
  have first : name.toList ≠ [] := by simpa using h.nonempty
  refine ⟨fun c hc listed => apart c hc (List.mem_cons_of_mem _ listed), fun minus => ?_, ?_⟩
  · exact apart '-' (List.mem_of_head? minus) List.mem_cons_self
  · exact ⟨name.toList.head first, List.head_mem first, h.begins _ (List.head?_eq_some_head first)⟩

theorem IsIdentifier.ne_body {name body : String} {target : Target} (h : IsIdentifier name)
    (numeral : Numeral.IsBody target body) : name ≠ body := by
  rintro rfl
  rcases numeral with rfl | rfl | decimal
  · exact absurd (by cases target <;> decide) h.ordinary
  · exact absurd (by cases target <;> decide) h.ordinary
  · rcases decimal.begins with ⟨c, hc, digit⟩
    exact absurd digit (by simp [h.begins c hc])

end SymbolicLinalg
