/-!
# EditDistance — spellings that differ by at most one edit

An edit inserts, deletes or replaces one character.  An operator whose name is one edit away from an
unknown name is suggested in its place.
-/

namespace SymbolicLinalg

namespace Text

/-- `OneEdit s t` says that a single edit turns `s` into `t`. -/
inductive OneEdit : List Char → List Char → Prop where
  | insertion (c : Char) (s : List Char) : OneEdit s (c :: s)
  | deletion (c : Char) (s : List Char) : OneEdit (c :: s) s
  | replacement (c d : Char) (s : List Char) : OneEdit (c :: s) (d :: s)
  | later (c : Char) {s t : List Char} : OneEdit s t → OneEdit (c :: s) (c :: t)

/-- Whether at most one edit turns the first list into the second.  Equal first characters can be
kept without loss; at the first difference the one edit has to happen. -/
def atMostOneEdit : List Char → List Char → Bool
  | [], t => decide (t.length ≤ 1)
  | s, [] => decide (s.length ≤ 1)
  | c :: s, d :: t =>
      if c = d then atMostOneEdit s t
      else decide (s = t) || decide (c :: s = t) || decide (s = d :: t)

/-- Whether two texts are the same or one edit apart. -/
def isNear (s t : String) : Bool :=
  atMostOneEdit s.toList t.toList

theorem atMostOneEdit_self (s : List Char) : atMostOneEdit s s = true := by
  induction s with
  | nil => rfl
  | cons c s ih => simp [atMostOneEdit, ih]

/-! ## One edit, exactly -/

theorem atMostOneEdit_insertion (c : Char) (s : List Char) : atMostOneEdit s (c :: s) = true := by
  induction s generalizing c with
  | nil => rfl
  | cons d s ih =>
      by_cases h : d = c
      · subst h; simp [atMostOneEdit, ih]
      · simp [atMostOneEdit, h]

theorem atMostOneEdit_deletion (c : Char) (s : List Char) : atMostOneEdit (c :: s) s = true := by
  induction s generalizing c with
  | nil => rfl
  | cons d s ih =>
      by_cases h : c = d
      · subst h; simp [atMostOneEdit, ih]
      · simp [atMostOneEdit, h]

theorem OneEdit.atMostOneEdit {s t : List Char} (h : OneEdit s t) :
    Text.atMostOneEdit s t = true := by
  induction h with
  | insertion c s => exact atMostOneEdit_insertion c s
  | deletion c s => exact atMostOneEdit_deletion c s
  | replacement c d s =>
      by_cases h : c = d
      · subst h; exact atMostOneEdit_self _
      · simp [Text.atMostOneEdit, h]
  | later c _ ih => simpa [Text.atMostOneEdit] using ih

theorem atMostOneEdit_iff {s t : List Char} :
    atMostOneEdit s t = true ↔ s = t ∨ OneEdit s t := by
  constructor
  · intro h
    induction s generalizing t with
    | nil =>
        match t, h with
        | [], _ => exact .inl rfl
        | [c], _ => exact .inr (.insertion c [])
    | cons c s ih =>
        cases t with
        | nil =>
            cases s with
            | nil => exact .inr (.deletion c [])
            | cons d s => simp [atMostOneEdit] at h
        | cons d t =>
            by_cases hcd : c = d
            · subst hcd
              rcases ih (by simpa [atMostOneEdit] using h) with rfl | edit
              · exact .inl rfl
              · exact .inr (.later c edit)
            · have cases : (s = t ∨ c :: s = t) ∨ s = d :: t := by
                simpa [atMostOneEdit, hcd] using h
              rcases cases with (rfl | rfl) | rfl
              · exact .inr (.replacement c d s)
              · exact .inr (.insertion d (c :: s))
              · exact .inr (.deletion c (d :: t))
  · rintro (rfl | edit)
    · exact atMostOneEdit_self s
    · exact edit.atMostOneEdit

end Text

end SymbolicLinalg
