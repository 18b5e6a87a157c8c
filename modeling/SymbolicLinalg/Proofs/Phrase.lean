/-!
# Phrase — texts that can be read in one way only

The texts of expressions are made of words.  A phrase is a word, a negative, two phrases with a symbol
between them, an element of a phrase, or a group of phrases under a name.  Negatives, symbols and
elements are enclosed in parentheses, and groups in brackets after their names.  A word may be followed
by a parenthesis in two ways: it may name a group, or an element may be taken of it.  The place of an
element is a number, and no phrase is just a number, so these can be told apart.

* `Phrase.Proper`: what is asked of the words in a phrase;
* `Phrase.Proper.decodes`: a proper phrase can be read off a text that begins with it;
* `Phrase.Spells.unique`: a text is spelled by one proper phrase at most.
-/

namespace SymbolicLinalg

/-! ## Phrases -/

/-- What encloses a group, or the place of an element. -/
inductive Bracket where
  | round
  | square
  | curly
  deriving DecidableEq, Repr

namespace Bracket

def opening : Bracket → List Char
  | .round => ['(']
  | .square => ['[']
  | .curly => [' ', '\x7b', ' ']

def closing : Bracket → List Char
  | .round => [')']
  | .square => [']']
  | .curly => [' ', '\x7d']

end Bracket

inductive Phrase where
  | word (text : String)
  | negative (operand : Phrase)
  | binary (symbol : String) (left right : Phrase)
  | element (bracket : Bracket) (index : String) (operand : Phrase)
  | group (bracket : Bracket) (name : String) (first : Phrase) (rest : List Phrase)

namespace Phrase

mutual

/-- The text of a phrase. -/
def chars (p : Phrase) : List Char :=
  match p with
  | .word text => text.toList
  | .negative x => '(' :: '-' :: (x.chars ++ [')'])
  | .binary symbol x y => '(' :: (x.chars ++ ' ' :: (symbol.toList ++ ' ' :: (y.chars ++ [')'])))
  | .element b index x => '(' :: (x.chars ++ (b.opening ++ (index.toList ++ (b.closing ++ [')']))))
  | .group b name x rest => name.toList ++ (b.opening ++ (x.chars ++ (charsAfter rest ++ b.closing)))

/-- The texts of phrases, each with a comma before it. -/
def charsAfter (phrases : List Phrase) : List Char :=
  match phrases with
  | [] => []
  | x :: rest => ',' :: ' ' :: (x.chars ++ charsAfter rest)

end

/-- The phrases of a group, separated by commas. -/
theorem intercalate_chars (x : Phrase) (rest : List Phrase) :
    [',', ' '].intercalate ((x :: rest).map chars) = x.chars ++ charsAfter rest := by
  induction rest generalizing x with
  | nil => simp [charsAfter]
  | cons y rest ih =>
      calc [',', ' '].intercalate ((x :: y :: rest).map chars)
          = x.chars ++ ([',', ' '] ++ [',', ' '].intercalate ((y :: rest).map chars)) := by
            simp [List.intercalate]
        _ = x.chars ++ charsAfter (y :: rest) := by
            rw [ih y, charsAfter]
            rfl

/-! ## Texts that begin with phrases -/

theorem negative_append (x : Phrase) (s : List Char) :
    (negative x).chars ++ s = '(' :: '-' :: (x.chars ++ ')' :: s) := by
  simp [chars]

theorem binary_append (w : String) (x y : Phrase) (s : List Char) :
    (binary w x y).chars ++ s =
      '(' :: (x.chars ++ ' ' :: (w.toList ++ ' ' :: (y.chars ++ ')' :: s))) := by
  simp [chars]

theorem element_append (b : Bracket) (i : String) (x : Phrase) (s : List Char) :
    (element b i x).chars ++ s =
      '(' :: (x.chars ++ (b.opening ++ (i.toList ++ (b.closing ++ ')' :: s)))) := by
  simp [chars]

theorem group_append (b : Bracket) (name : String) (x : Phrase) (rest : List Phrase) (s : List Char) :
    (group b name x rest).chars ++ s =
      name.toList ++ (b.opening ++ (x.chars ++ (charsAfter rest ++ (b.closing ++ s)))) := by
  simp [chars]

/-! ## Words -/

-- only the characters of the text are looked at, not all that there are
instance (l : List Char) (p : Char → Prop) [DecidablePred p] : Decidable (∀ c ∈ l, p c) :=
  List.decidableBAll p l

instance (l : List Char) (p : Char → Prop) [DecidablePred p] : Decidable (∃ c ∈ l, p c) :=
  List.decidableBEx p l

/-- The characters that words are separated by. -/
def delimiters : List Char :=
  [' ', '(', ')', ',', '[', ']', '\x7b', '\x7d']

/-- A word has no delimiters in it, does not begin like a negative, and is not just a number. -/
def IsWord (w : String) : Prop :=
  (∀ c ∈ w.toList, c ∉ delimiters) ∧ w.toList.head? ≠ some '-' ∧ ∃ c ∈ w.toList, c.isDigit = false

instance (w : String) : Decidable (IsWord w) :=
  inferInstanceAs (Decidable (_ ∧ _ ∧ _))

def IsSymbol (s : String) : Prop :=
  s.toList ≠ [] ∧ ∀ c ∈ s.toList, c ∉ delimiters

instance (s : String) : Decidable (IsSymbol s) :=
  inferInstanceAs (Decidable (_ ∧ _))

/-- A place does not contain the bracket that closes it; in parentheses it is a number, or begins with
a number and a comma. -/
def IsPlace : Bracket → String → Prop
  | .round, index =>
      ')' ∉ index.toList ∧ (index.toList.dropWhile Char.isDigit).head? ∈ [none, some ',']
  | .square, index => ']' ∉ index.toList
  | .curly, _ => False

instance : (b : Bracket) → (index : String) → Decidable (IsPlace b index)
  | .round, _ => inferInstanceAs (Decidable (_ ∧ _))
  | .square, _ => inferInstanceAs (Decidable (¬ _))
  | .curly, _ => inferInstanceAs (Decidable False)

inductive Proper : Phrase → Prop where
  | word {w : String} : IsWord w → Proper (.word w)
  | negative {x : Phrase} : Proper x → Proper (.negative x)
  | binary {s : String} {x y : Phrase} : IsSymbol s → Proper x → Proper y → Proper (.binary s x y)
  | element {b : Bracket} {index : String} {x : Phrase} :
      IsPlace b index → Proper x → Proper (.element b index x)
  | group {b : Bracket} {name : String} {x : Phrase} {rest : List Phrase} :
      b ≠ .square → IsWord name → Proper x → (∀ y ∈ rest, Proper y) →
      Proper (.group b name x rest)

/-! ## What follows a phrase -/

/-- Nothing, or something that is no part of a word. -/
def Delimited (s : List Char) : Prop :=
  ∀ c ∈ s.head?, c ∈ delimiters

/-- What may follow a phrase: neither a part of its last word, nor a bracket that would make a group of
it. -/
inductive Ends : List Char → Prop where
  | nil : Ends []
  | comma (s : List Char) : Ends (',' :: s)
  | parenthesis (s : List Char) : Ends (')' :: s)
  | square (s : List Char) : Ends ('[' :: s)
  | blank {c : Char} (s : List Char) : c ≠ '\x7b' → Ends (' ' :: c :: s)
  | place {digits : List Char} {c : Char} (s : List Char) :
      (∀ d ∈ digits, d.isDigit = true) → c ∈ [',', ')'] → Ends ('(' :: (digits ++ c :: s))

variable {x y : Phrase} {rest ys : List Phrase} {b : Bracket} {s t : List Char} {v w : String}

theorem Ends.delimited (h : Ends s) : Delimited s := by
  cases h with
  | nil => exact nofun
  | comma | parenthesis | square | blank | place =>
      rintro _ ⟨⟩
      decide

theorem delimited_opening (b : Bracket) (s : List Char) : Delimited (b.opening ++ s) := by
  cases b with
  | round | square | curly =>
      rintro _ ⟨⟩
      decide

theorem delimited_blank (s : List Char) : Delimited (' ' :: s) := by
  rintro _ ⟨⟩
  decide

theorem ends_closing (h : b ≠ .square) (s : List Char) : Ends (b.closing ++ s) := by
  cases b with
  | round => exact .parenthesis s
  | square => exact absurd rfl h
  | curly => exact .blank s (by decide)

theorem ends_charsAfter (h : b ≠ .square) (rest : List Phrase) (s : List Char) :
    Ends (charsAfter rest ++ (b.closing ++ s)) := by
  cases rest with
  | nil => exact ends_closing h s
  | cons x rest =>
      rw [charsAfter]
      exact .comma _

theorem ends_symbol (h : IsSymbol w) (s : List Char) : Ends (' ' :: (w.toList ++ s)) := by
  rcases h with ⟨nonempty, plain⟩
  cases chars : w.toList with
  | nil => exact absurd chars nonempty
  | cons c cs =>
      refine .blank _ ?_
      rintro rfl
      exact plain '\x7b' (chars ▸ List.mem_cons_self) (by decide)

theorem ends_place (h : IsPlace b w) (s : List Char) :
    Ends (b.opening ++ (w.toList ++ (b.closing ++ s))) := by
  cases b with
  | curly => exact h.elim
  | square => exact .square _
  | round =>
      have digits : ∀ d ∈ w.toList.takeWhile Char.isDigit, d.isDigit = true :=
        List.all_eq_true.1 List.all_takeWhile
      -- after its digits the place is at its end or goes on with a comma
      have split := List.takeWhile_append_dropWhile (p := Char.isDigit) (l := w.toList)
      rw [← split]
      rcases h with ⟨_, after⟩
      cases tail : w.toList.dropWhile Char.isDigit with
      | nil =>
          rw [List.append_nil]
          exact .place s digits (by decide)
      | cons c cs =>
          rw [tail, List.head?_cons] at after
          rw [List.append_assoc]
          have comma : c = ',' := by simpa using after
          exact .place _ digits (by simp [comma])

theorem IsPlace.not_blank (h : IsPlace b w) (s : List Char) : b.opening ++ s ≠ ' ' :: t := by
  cases b with
  | curly => exact h.elim
  | round | square => exact fun same => absurd (List.cons.inj same).1 (by decide)

/-! ## Reading words -/

/-- A text has one beginning of the characters of some kind. -/
theorem span_unique (kind : Char → Bool) {l k : List Char} (hl : ∀ c ∈ l, kind c = true)
    (hk : ∀ c ∈ k, kind c = true) (hs : ∀ c ∈ s.head?, kind c = false)
    (ht : ∀ c ∈ t.head?, kind c = false) (same : l ++ s = k ++ t) : l = k ∧ s = t := by
  have taken {l s : List Char} (hl : ∀ c ∈ l, kind c = true) (hs : ∀ c ∈ s.head?, kind c = false) :
      (l ++ s).takeWhile kind = l := by
    rw [List.takeWhile_append_of_pos hl]
    cases s with
    | nil => simp
    | cons c s => simp [hs c rfl]
  have first : l = k := by
    calc l = (l ++ s).takeWhile kind := (taken hl hs).symm
      _ = (k ++ t).takeWhile kind := by rw [same]
      _ = k := taken hk ht
  subst first
  exact ⟨rfl, List.append_cancel_left same⟩

/-- Two words that begin a text are one word. -/
theorem word_unique {l k : List Char} (hl : ∀ c ∈ l, c ∉ delimiters) (hk : ∀ c ∈ k, c ∉ delimiters)
    (hs : Delimited s) (ht : Delimited t) (same : l ++ s = k ++ t) : l = k ∧ s = t := by
  refine span_unique (· ∉ delimiters) ?_ ?_ ?_ ?_ same
  · simpa using hl
  · simpa using hk
  · simpa [Delimited] using hs
  · simpa [Delimited] using ht

/-- The brackets begin differently. -/
theorem opening_unique {c : Bracket} (same : b.opening ++ s = c.opening ++ t) : b = c ∧ s = t := by
  have kind : b = c := by
    cases b <;> cases c <;> first | rfl | exact absurd (List.cons.inj same).1 (by decide)
  subst kind
  exact ⟨rfl, List.append_cancel_left same⟩

/-- Two places that follow a phrase are one place. -/
theorem place_unique (hb : IsPlace b v) (hw : IsPlace b w)
    (same : v.toList ++ (b.closing ++ s) = w.toList ++ (b.closing ++ t)) : v = w ∧ s = t := by
  -- the place ends with the first bracket that closes it
  have read {close : Char} (hv : close ∉ v.toList) (hw : close ∉ w.toList)
      (same : v.toList ++ close :: s = w.toList ++ close :: t) : v = w ∧ s = t := by
    have inside {l : List Char} (h : close ∉ l) : ∀ c ∈ l, (c != close) = true :=
      fun c hc => bne_iff_ne.2 (ne_of_mem_of_not_mem hc h)
    have split := span_unique (· != close) (inside hv) (inside hw) (by simp) (by simp) same
    exact ⟨String.toList_inj.1 split.1, (List.cons.inj split.2).2⟩
  cases b with
  | curly => exact hb.elim
  | round => exact read hb.1 hw.1 same
  | square => exact read hb hw same

theorem digit_plain {c : Char} (h : c.isDigit = true) : c ∉ delimiters := by
  intro listed
  have none : ∀ c ∈ delimiters, c.isDigit = false := by decide
  exact absurd h (by simp [none c listed])

/-- A word does not begin with a parenthesis. -/
theorem IsWord.not_opens (h : IsWord w) : w.toList ++ s ≠ '(' :: t := by
  rcases h with ⟨plain, _, c, hc, _⟩
  cases chars : w.toList with
  | nil => exact absurd (chars ▸ hc) List.not_mem_nil
  | cons d ds =>
      intro opens
      have first := (List.cons.inj opens).1
      exact plain d (chars ▸ List.mem_cons_self) (first ▸ by decide)

/-- A phrase begins with a word or a parenthesis. -/
theorem Proper.begins (h : Proper x) :
    (∃ w : String, IsWord w ∧ ∃ l, x.chars = w.toList ++ l ∧ ∀ s, Ends s → Delimited (l ++ s)) ∨
      ∃ l, x.chars = '(' :: l := by
  cases h with
  | @word w isWord =>
      refine .inl ⟨w, isWord, [], ?_, fun s ends => ends.delimited⟩
      rw [chars, List.append_nil]
  | negative | binary | element =>
      rw [chars]
      exact .inr ⟨_, rfl⟩
  | @group b name x rest _ isWord =>
      refine .inl ⟨name, isWord, _, by rw [chars], fun s _ => ?_⟩
      rw [List.append_assoc]
      exact delimited_opening b _

/-- No phrase begins like a negative in its parentheses. -/
theorem Proper.not_minus (h : Proper x) : x.chars ++ s ≠ '-' :: t := by
  rcases h.begins with ⟨w, ⟨_, head, c, hc, _⟩, l, same, _⟩ | ⟨l, same⟩
  · rw [same]
    cases chars : w.toList with
    | nil => exact absurd (chars ▸ hc) List.not_mem_nil
    | cons d ds =>
        rw [chars, List.head?_cons] at head
        intro minus
        exact head (congrArg some (List.cons.inj minus).1)
  · rw [same]
    exact fun minus => absurd (List.cons.inj minus).1 (by decide)

/-- No phrase is just the number of a place. -/
theorem Proper.not_place (h : Proper x) (ends : Ends s) {digits : List Char}
    (hd : ∀ d ∈ digits, d.isDigit = true) {c : Char} (hc : c ∈ [',', ')']) :
    x.chars ++ s ≠ digits ++ c :: t := by
  have delimiter : c ∈ delimiters := by
    revert c
    decide
  intro same
  rcases h.begins with ⟨w, ⟨plain, _, d, hw, noDigit⟩, l, begins, delimited⟩ | ⟨l, begins⟩
  · -- the digits would be the whole word
    rw [begins, List.append_assoc] at same
    have whole := (word_unique plain (fun d hd' => digit_plain (hd d hd')) (delimited s ends)
      (by rintro _ ⟨⟩; exact delimiter) same).1
    rw [whole] at hw
    exact absurd (hd d hw) (by simp [noDigit])
  · rw [begins] at same
    cases digits with
    | nil =>
        obtain ⟨rfl, -⟩ := List.cons.inj same
        exact absurd hc (by decide)
    | cons d digits =>
        obtain ⟨rfl, -⟩ := List.cons.inj same
        exact absurd (hd '(' List.mem_cons_self) (by decide)

/-- A group does not look like a word from its name on. -/
theorem Proper.not_ends (h : Proper x) (kind : b ≠ .square) (rest : List Phrase) (s : List Char) :
    ¬ Ends (b.opening ++ (x.chars ++ (charsAfter rest ++ (b.closing ++ s)))) := by
  intro ends
  cases b with
  | square => exact kind rfl
  | curly =>
      cases ends with
      | blank _ other => exact other rfl
  | round =>
      -- what is in the parentheses would be the place of an element
      generalize found : x.chars ++ (charsAfter rest ++ (Bracket.round.closing ++ s)) = text at ends
      cases ends with
      | place t digits hc => exact h.not_place (ends_charsAfter kind rest s) digits hc found

/-! ## Reading phrases -/

/-- The phrase can be read off a text that begins with it. -/
def Decodes (x : Phrase) : Prop :=
  ∀ ⦃y s t⦄, Proper y → Ends s → Ends t → x.chars ++ s = y.chars ++ t → x = y ∧ s = t

theorem decodes_word (isWord : IsWord w) : Decodes (.word w) := by
  intro y s t hy hs ht same
  rw [chars] at same
  cases hy with
  | word other =>
      rw [chars] at same
      have read := word_unique isWord.1 other.1 hs.delimited ht.delimited same
      exact ⟨congrArg Phrase.word (String.toList_inj.1 read.1), read.2⟩
  | group kind other first others =>
      rw [group_append] at same
      have read := word_unique isWord.1 other.1 hs.delimited (delimited_opening _ _) same
      exact absurd (read.2 ▸ hs) (first.not_ends kind _ t)
  | negative | binary | element =>
      rw [chars] at same
      exact absurd same isWord.not_opens

/-- What begins with a parenthesis is a negative, a pair with a symbol, or an element. -/
theorem Proper.enclosed (h : Proper y) (same : '(' :: t = y.chars ++ s) :
    (∃ x, Proper x ∧ y = .negative x ∧ t = '-' :: (x.chars ++ ')' :: s)) ∨
      (∃ w x z, IsSymbol w ∧ Proper x ∧ Proper z ∧ y = .binary w x z ∧
        t = x.chars ++ ' ' :: (w.toList ++ ' ' :: (z.chars ++ ')' :: s))) ∨
        ∃ b i x, IsPlace b i ∧ Proper x ∧ y = .element b i x ∧
          t = x.chars ++ (b.opening ++ (i.toList ++ (b.closing ++ ')' :: s))) := by
  cases h with
  | word other =>
      rw [chars] at same
      exact absurd same.symm other.not_opens
  | group kind other first others =>
      rw [group_append] at same
      exact absurd same.symm other.not_opens
  | negative hx =>
      rw [negative_append] at same
      exact .inl ⟨_, hx, rfl, (List.cons.inj same).2⟩
  | binary symbol left right =>
      rw [binary_append] at same
      exact .inr (.inl ⟨_, _, _, symbol, left, right, rfl, (List.cons.inj same).2⟩)
  | element place hx =>
      rw [element_append] at same
      exact .inr (.inr ⟨_, _, _, place, hx, rfl, (List.cons.inj same).2⟩)

theorem decodes_negative (hx : Decodes x) : Decodes (.negative x) := by
  intro y s t hy hs ht same
  rw [negative_append] at same
  rcases hy.enclosed same with ⟨z, hz, rfl, inside⟩ | ⟨w, z, z', _, hz, _, _, inside⟩ |
    ⟨b, i, z, _, hz, _, inside⟩
  · rcases hx hz (.parenthesis s) (.parenthesis t) (List.cons.inj inside).2 with ⟨rfl, after⟩
    exact ⟨rfl, (List.cons.inj after).2⟩
  · exact absurd inside.symm hz.not_minus
  · exact absurd inside.symm hz.not_minus

theorem decodes_binary (symbol : IsSymbol w) (left : Decodes x) (right : Decodes y)
    (proper : Proper x) : Decodes (.binary w x y) := by
  intro z s t hz hs ht same
  rw [binary_append] at same
  rcases hz.enclosed same with ⟨z', hz', rfl, inside⟩ |
    ⟨v, x', y', symbol', hx', hy', rfl, inside⟩ | ⟨b, i, x', place, hx', rfl, inside⟩
  · exact absurd inside proper.not_minus
  · rcases left hx' (ends_symbol symbol _) (ends_symbol symbol' _) inside with ⟨rfl, after⟩
    rcases word_unique symbol.2 symbol'.2 (delimited_blank _) (delimited_blank _)
      (List.cons.inj after).2 with ⟨sameSymbol, after⟩
    rcases right hy' (.parenthesis s) (.parenthesis t) (List.cons.inj after).2 with ⟨rfl, closed⟩
    exact ⟨by rw [String.toList_inj.1 sameSymbol], (List.cons.inj closed).2⟩
  · have after := (left hx' (ends_symbol symbol _) (ends_place place _) inside).2
    exact absurd after.symm (place.not_blank _)

theorem decodes_element {i : String} (place : IsPlace b i) (hx : Decodes x) (proper : Proper x) :
    Decodes (.element b i x) := by
  intro z s t hz hs ht same
  rw [element_append] at same
  rcases hz.enclosed same with ⟨z', hz', rfl, inside⟩ |
    ⟨w, x', y', symbol, hx', _, rfl, inside⟩ | ⟨c, j, x', place', hx', rfl, inside⟩
  · exact absurd inside proper.not_minus
  · have after := (hx hx' (ends_place place _) (ends_symbol symbol _) inside).2
    exact absurd after (place.not_blank _)
  · rcases hx hx' (ends_place place _) (ends_place place' _) inside with ⟨rfl, after⟩
    rcases opening_unique after with ⟨rfl, inside⟩
    rcases place_unique place place' inside with ⟨rfl, closed⟩
    exact ⟨rfl, (List.cons.inj closed).2⟩

/-- The phrases of a group can be read one after the other. -/
theorem rest_unique (kind : b ≠ .square) (each : ∀ x ∈ rest, Decodes x) (proper : ∀ y ∈ ys, Proper y)
    (same : charsAfter rest ++ (b.closing ++ s) = charsAfter ys ++ (b.closing ++ t)) :
    rest = ys ∧ s = t := by
  have closed (y : Phrase) (u v : List Char) : b.closing ++ u ≠ ',' :: v := by
    cases b with
    | round | square | curly => exact fun same => absurd (List.cons.inj same).1 (by decide)
  induction rest generalizing ys with
  | nil =>
      cases ys with
      | nil => exact ⟨rfl, List.append_cancel_left same⟩
      | cons y ys => exact absurd same (closed y _ _)
  | cons x rest ih =>
      rw [List.forall_mem_cons] at each
      cases ys with
      | nil => exact absurd same.symm (closed x _ _)
      | cons y ys =>
          rw [List.forall_mem_cons] at proper
          simp only [charsAfter, List.cons_append, List.append_assoc, List.cons.injEq,
            true_and] at same
          rcases each.1 proper.1 (ends_charsAfter kind rest s) (ends_charsAfter kind ys t) same with
            ⟨rfl, after⟩
          rcases ih each.2 proper.2 after with ⟨rfl, rfl⟩
          exact ⟨rfl, rfl⟩

theorem decodes_group (kind : b ≠ .square) (isWord : IsWord w) (hx : Decodes x) (proper : Proper x)
    (each : ∀ y ∈ rest, Decodes y) : Decodes (.group b w x rest) := by
  intro z s t hz hs ht same
  rw [group_append] at same
  cases hz with
  | word other =>
      rw [chars] at same
      have read := word_unique isWord.1 other.1 (delimited_opening _ _) ht.delimited same
      exact absurd (read.2 ▸ ht) (proper.not_ends kind rest s)
  | @group c v y ys kind' other first others =>
      rw [group_append] at same
      rcases word_unique isWord.1 other.1 (delimited_opening _ _) (delimited_opening _ _) same with
        ⟨sameName, after⟩
      obtain rfl := String.toList_inj.1 sameName
      rcases opening_unique after with ⟨rfl, inside⟩
      rcases hx first (ends_charsAfter kind rest s) (ends_charsAfter kind ys t) inside with
        ⟨rfl, items⟩
      rcases rest_unique kind each others items with ⟨rfl, rfl⟩
      exact ⟨rfl, rfl⟩
  | negative | binary | element =>
      rw [chars] at same
      exact absurd same isWord.not_opens

/-- A proper phrase can be read off a text that begins with it. -/
theorem Proper.decodes (h : Proper x) : Decodes x := by
  induction h with
  | word isWord => exact decodes_word isWord
  | negative _ ih => exact decodes_negative ih
  | binary symbol proper _ left right => exact decodes_binary symbol left right proper
  | element place proper ih => exact decodes_element place ih proper
  | group kind isWord proper _ ih ihs => exact decodes_group kind isWord ih proper ihs

/-! ## Spelling -/

/-- A proper phrase of a text. -/
structure Spells (p : Phrase) (text : String) : Prop where
  proper : p.Proper
  chars : p.chars = text.toList

/-- A text is spelled by one proper phrase at most. -/
theorem Spells.unique {p q : Phrase} {text : String} (hp : p.Spells text) (hq : q.Spells text) :
    p = q := by
  refine (hp.proper.decodes hq.proper .nil .nil ?_).1
  rw [hp.chars, hq.chars]

theorem Spells.text_eq {p : Phrase} {text other : String} (h : p.Spells text)
    (h' : p.Spells other) : text = other :=
  String.toList_inj.1 (h.chars.symm.trans h'.chars)

end Phrase

end SymbolicLinalg
