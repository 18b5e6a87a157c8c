import SymbolicLinalg.Node.Tree
import SymbolicLinalg.Proofs.Compilation
import SymbolicLinalg.Proofs.Legible
import SymbolicLinalg.Proofs.Spelling

/-!
# Unambiguous — the text of an expression tells its tree

Every lowered expression has a phrase that spells its text, and a text is spelled by one phrase only.
The phrase tells the operator together with the shapes of the operands, so trees can be compared from
the leaves up.  What could be taken for something else are constants: a negative number is written
like a negation, and a vector of numbers like one that is built from components.  But neither is ever
applied to constants only, since that would have been computed at once.

* `Node.printed`: the tree of an expression, with its constants as they are printed;
* `Standard.exists_writes`: the phrase of an expression;
* `Standard.printed_eq`: expressions with one text have one tree;
* `Standard.render_unambiguous`: and so have all that are built, lowered and rendered.
-/

namespace SymbolicLinalg

variable {K L : Type}

/-! ## Lists and shapes -/

/-- What each element has a counterpart in, the list has counterparts in. -/
theorem exists_forall₂ {α β : Type} {R : α → β → Prop} {l : List β} (h : ∀ b ∈ l, ∃ a, R a b) :
    ∃ as, List.Forall₂ R as l := by
  induction l with
  | nil => exact ⟨[], .nil⟩
  | cons b rest ih =>
      rw [List.forall_mem_cons] at h
      rcases h.1 with ⟨a, ha⟩
      rcases ih h.2 with ⟨as, has⟩
      exact ⟨a :: as, .cons ha has⟩

/-- Lists with counterparts in one list have the same values, if elements with one counterpart do. -/
theorem map_eq_map {α β γ δ : Type} {R : γ → α → Prop} {S : γ → β → Prop} {f : α → δ} {g : β → δ}
    {cs : List γ} {as : List α} {bs : List β} (first : List.Forall₂ R cs as)
    (second : List.Forall₂ S cs bs)
    (same : ∀ c, ∀ a ∈ as, ∀ b ∈ bs, R c a → S c b → f a = g b) : as.map f = bs.map g := by
  induction first generalizing bs with
  | nil =>
      cases second
      rfl
  | @cons c a _ _ ha _ ih =>
      cases second with
      | @cons _ b _ _ hb rest =>
          have here := same c a List.mem_cons_self b List.mem_cons_self ha hb
          have later := ih rest fun c a ha b hb =>
            same c a (List.mem_cons_of_mem _ ha) b (List.mem_cons_of_mem _ hb)
          rw [List.map_cons, List.map_cons, here, later]

theorem Shape.eq_of_size_eq {s t : Shape} (hs : s.isScalar = false) (ht : t.isScalar = false)
    (size : s.size = t.size) : s = t := by
  revert hs ht size
  cases s <;> cases t <;> decide

/-! ## Trees in print -/

namespace Tree

mutual

/-- The tree with its components replaced. -/
def map (f : K → L) (t : Tree K) : Tree L :=
  match t with
  | .constant value => .constant ⟨value.shape, value.components.map f⟩
  | .leaf id name shape => .leaf id name shape
  | .application operator operands => .application operator (mapAll f operands)

def mapAll (f : K → L) (trees : List (Tree K)) : List (Tree L) :=
  match trees with
  | [] => []
  | t :: rest => t.map f :: mapAll f rest

end

theorem mapAll_eq_map (f : K → L) (trees : List (Tree K)) : mapAll f trees = trees.map (map f) := by
  induction trees with
  | nil => rw [mapAll, List.map_nil]
  | cons t rest ih => rw [mapAll, ih, List.map_cons]

theorem shape_map (f : K → L) (t : Tree K) : (t.map f).shape = t.shape := by
  cases t <;> simp [map, shape]

end Tree

namespace Node

variable [Numeral K]

/-- The tree of an expression, with its constants as a target prints them. -/
def printed (target : Target) (n : Node K) : Tree String :=
  n.tree.map (Numeral.code target)

theorem printed_application (target : Target) (id : NodeId) (s : Signature) (operands : List (Node K)) :
    (application id s operands).printed target =
      .application s (operands.map (printed target)) := by
  rw [printed, tree_application, Tree.map, Tree.mapAll_eq_map, List.map_map]
  rfl

theorem shape_printed (target : Target) (n : Node K) : (n.printed target).shape = n.shape := by
  rw [printed, Tree.shape_map, shape_tree]

theorem shapes_printed (target : Target) (nodes : List (Node K)) :
    (nodes.map (printed target)).map Tree.shape = nodes.map shape := by
  rw [List.map_map]
  exact List.map_congr_left fun n _ => n.shape_printed target

end Node

/-! ## What is asked of leaves -/

namespace Node

/-- The names of leaves are identifiers. -/
def NamesIdentifiers (n : Node K) : Prop :=
  ∀ id name s, n.Reaches (.leaf id name s) → IsIdentifier name

/-- There are no symbolic reals in the graph. -/
def Definite (n : Node K) : Prop :=
  ∀ x, n.Reaches x → x.shape ≠ .genericScalar

/-- Leaves of one name are one leaf. -/
def SharesLeaves (m n : Node K) : Prop :=
  ∀ i j name s t, m.Reaches (.leaf i name s) → n.Reaches (.leaf j name t) → i = j ∧ s = t

section

variable {m n m' n' : Node K} {id i j : NodeId} {s t : Shape} {name other : String} {o : Signature}
  {operands : List (Node K)}

theorem NamesIdentifiers.leaf (h : IsIdentifier name) :
    (leaf id name s : Node K).NamesIdentifiers := by
  intro i other t below
  obtain ⟨-, rfl, -⟩ := Node.leaf.inj (below.eq_of_operands_eq_nil rfl)
  exact h

theorem NamesIdentifiers.application (h : ∀ m ∈ operands, m.NamesIdentifiers) :
    (application id o operands).NamesIdentifiers := by
  intro i name s below
  rcases reaches_iff.1 below with same | ⟨m, hm, below⟩
  · exact absurd same nofun
  · exact h m hm i name s below

theorem Definite.leaf (h : s ≠ .genericScalar) : (leaf id name s : Node K).Definite := by
  intro x below
  obtain rfl := below.eq_of_operands_eq_nil rfl
  exact h

theorem Definite.application (result : o.result ≠ .genericScalar) (h : ∀ m ∈ operands, m.Definite) :
    (application id o operands).Definite := by
  intro x below
  rcases reaches_iff.1 below with rfl | ⟨m, hm, below⟩
  · exact result
  · exact h m hm x below

theorem SharesLeaves.of_reaches (h : m.SharesLeaves n) (below : m.Reaches m')
    (below' : n.Reaches n') : m'.SharesLeaves n' :=
  fun i j name s t hi hj => h i j name s t (below.trans hi) (below'.trans hj)

theorem SharesLeaves.symm (h : m.SharesLeaves n) : n.SharesLeaves m := by
  intro i j name s t hi hj
  rcases h j i name t s hj hi with ⟨rfl, rfl⟩
  exact ⟨rfl, rfl⟩

theorem SharesLeaves.leaf (h : name = other → i = j ∧ s = t) :
    (leaf i name s : Node K).SharesLeaves (leaf j other t) := by
  intro i' j' name' s' t' hi hj
  obtain ⟨rfl, rfl, rfl⟩ := Node.leaf.inj (hi.eq_of_operands_eq_nil rfl)
  obtain ⟨rfl, rfl, rfl⟩ := Node.leaf.inj (hj.eq_of_operands_eq_nil rfl)
  exact h rfl

theorem SharesLeaves.application (h : ∀ m ∈ operands, m.SharesLeaves n) :
    (application id o operands).SharesLeaves n := by
  intro i j name s t hi hj
  rcases reaches_iff.1 hi with same | ⟨m, hm, below⟩
  · exact absurd same nofun
  · exact h m hm i j name s t below hj

end

end Node

namespace Standard

/-! ## Phrases of constants -/

section

variable {target : Target} {v w : Literal K} {p q : Phrase} {ps : List Phrase}

theorem takes_of_components (target : Target) {R : Phrase → K → Prop}
    (vector : v.shape.isScalar = false) (complete : v.Complete)
    (components : List.Forall₂ R ps v.components) :
    (containerSpelling v.shape target).Takes ps.length := by
  rw [components.length_eq, complete]
  exact (proper_container vector target).2

theorem containerSpelling_ne (s : Shape) (target : Target) :
    containerSpelling s target ≠ .negative ∧ containerSpelling s target ≠ .outer ∧
      ∀ symbol, containerSpelling s target ≠ .binary symbol := by
  cases target <;> simp [containerSpelling]

/-- What is written like a vector or matrix is written over the same phrases. -/
theorem container_unique {k : Spelling} {qs : List Phrase} {s : Shape}
    (takes : (containerSpelling s target).Takes ps.length) (takes' : k.Takes qs.length)
    (same : (containerSpelling s target).phrase ps = k.phrase qs) :
    k = containerSpelling s target ∧ ps = qs := by
  rcases containerSpelling_ne s target with ⟨_, outer, binary⟩
  rcases Spelling.phrase_inj takes takes' same with ⟨rfl, phrases⟩ | ⟨⟨column, _⟩ | ⟨product, _⟩, _⟩
  · exact ⟨rfl, phrases⟩
  · exact absurd column outer
  · exact absurd product (binary "*")

variable [Numeral K]

/-- How the phrase of a constant is made. -/
inductive WritesLiteral (target : Target) (v : Literal K) : Phrase → Prop where
  | scalar {x : K} {p : Phrase} : v.components = [x] → v.shape = .scalar → p.IsNumeral target →
      p.Spells (Numeral.code target x) → WritesLiteral target v p
  | container {ps : List Phrase} : v.shape.isScalar = false → v.Complete →
      List.Forall₂ (fun (p : Phrase) x => p.IsNumeral target ∧ p.Spells (Numeral.code target x))
        ps v.components →
      WritesLiteral target v ((containerSpelling v.shape target).phrase ps)

/-- A constant is not written like a leaf. -/
theorem WritesLiteral.ne_word (h : WritesLiteral target v p) {name : String}
    (identifier : IsIdentifier name) : p ≠ .word name := by
  intro phrase
  cases h with
  | scalar _ _ numeral _ =>
      cases numeral with
      | positive isBody => exact identifier.ne_body isBody (Phrase.word.inj phrase).symm
      | negative => exact absurd phrase nofun
  | container vector complete components =>
      exact Spelling.phrase_ne_word (takes_of_components target vector complete components) name phrase

/-- A number is not written like a vector or matrix. -/
theorem numeral_ne_container {s : Shape} (numeral : p.IsNumeral target)
    (takes : (containerSpelling s target).Takes ps.length) :
    (containerSpelling s target).phrase ps ≠ p := by
  intro same
  cases numeral with
  | positive => exact Spelling.phrase_ne_word takes _ same
  | @negative body _ =>
      have single : Spelling.negative.Takes [Phrase.word body].length := rfl
      have written := (container_unique takes single same).1
      exact (containerSpelling_ne s target).1 written.symm

/-- Constants that are written alike are printed alike. -/
theorem WritesLiteral.unique (hv : WritesLiteral target v p) (hw : WritesLiteral target w q)
    (same : p = q) :
    v.shape = w.shape ∧
      v.components.map (Numeral.code target) = w.components.map (Numeral.code target) := by
  cases hv with
  | scalar single shape numeral spells =>
      cases hw with
      | scalar single' shape' _ spells' =>
          have code := (same ▸ spells).text_eq spells'
          rw [shape, shape', single, single', List.map_singleton, List.map_singleton, code]
          exact ⟨rfl, rfl⟩
      | container vector complete components =>
          have takes := takes_of_components target vector complete components
          exact absurd same.symm (numeral_ne_container numeral takes)
  | container vector complete components =>
      have takes := takes_of_components target vector complete components
      cases hw with
      | scalar _ _ numeral _ => exact absurd same (numeral_ne_container numeral takes)
      | container vector' complete' components' =>
          obtain ⟨-, rfl⟩ :=
            container_unique takes (takes_of_components target vector' complete' components') same
          have size : v.shape.size = w.shape.size := by
            rw [← complete, ← complete', ← components.length_eq, components'.length_eq]
          refine ⟨Shape.eq_of_size_eq vector vector' size, ?_⟩
          exact map_eq_map components components' fun _ _ _ _ _ h h' => h.2.text_eq h'.2

end

/-! ## Phrases of expressions -/

variable [Arithmetic K] [Numeral K] {target : Target} {m n : Node K} {p q : Phrase}

/-- The text of a plain expression. -/
abbrev text (target : Target) (n : Node K) : String :=
  (Registry.standard : Registry K).code target n

/-- The operands fit a plain operator, and these are their phrases. -/
structure WrittenOver (target : Target) (s : Signature) (operands : List (Node K))
    (ps : List Phrase) : Prop where
  listed : s ∈ plainSignatures
  shapes : operands.map Node.shape = s.operands
  parts : List.Forall₂ (fun p m => p.Spells (text target m)) ps operands

/-- How the phrase of an expression is made. -/
inductive Writes (target : Target) : Node K → Phrase → Prop where
  | constant {id : NodeId} {v : Literal K} {p : Phrase} :
      WritesLiteral target v p → Writes target (.constant id v) p
  | leaf (id : NodeId) (name : String) (s : Shape) : Writes target (.leaf id name s) (.word name)
  | application {id : NodeId} {s : Signature} {operands : List (Node K)} {ps : List Phrase} :
      WrittenOver target s operands ps →
      Writes target (.application id s operands) ((spelling target s).phrase ps)

/-- A lowered form whose text is to be read. -/
structure Readable (n : Node K) : Prop where
  typed : Typed n
  primitive : Primitive n
  folded : Folded n
  names : n.NamesIdentifiers
  definite : n.Definite

theorem Readable.operand (h : Readable n) (hm : m ∈ n.operands) : Readable m := by
  have below : n.Reaches m := .of_mem_operands hm
  exact {
    typed := h.typed.of_reaches below
    primitive := fun id s operands reached => h.primitive id s operands (below.trans reached)
    folded := h.folded.of_reaches below
    names := fun id name s reached => h.names id name s (below.trans reached)
    definite := fun x reached => h.definite x (below.trans reached) }

section

variable {id : NodeId} {s : Signature} {operands : List (Node K)} {ps : List Phrase}

theorem text_application {o : Operator} (plain : IsPlain o.signature.name) (id : NodeId)
    (operands : List (Node K)) :
    text target (.application id o.signature operands) =
      (spelling target o.signature).text (operands.map (text target)) := by
  rw [text, Registry.code_application, Registry.renderer, o.hooks_eq, o.render_eq plain]
  rfl

theorem WrittenOver.takes (h : WrittenOver target s operands ps) :
    (spelling target s).Takes ps.length := by
  rw [h.parts.length_eq, ← List.length_map Node.shape, h.shapes]
  exact (proper_spelling target s h.listed).2

/-- What may be taken for a constant is not made of constants only. -/
theorem Readable.exists_operand (readable : Readable (.application id s operands))
    (h : WrittenOver target s operands ps)
    (written : spelling target s = .negative ∨
      ∃ a ∈ Shape.all, a.isScalar = false ∧ spelling target s = containerSpelling a target) :
    ∃ m ∈ operands, m.isConstant = false := by
  have scalars := scalar_operands target s h.listed written
  rw [← h.shapes, List.forall_mem_map] at scalars
  exact readable.folded id s operands (.refl _) (readable.primitive id s operands (.refl _)) scalars

/-! ## Telling applications apart -/

/-- Of these expressions, two with one text have one tree. -/
def ReadAlike (target : Target) (ms ns : List (Node K)) : Prop :=
  ∀ m ∈ ms, ∀ n ∈ ns, text target m = text target n → m.printed target = n.printed target

variable {t : Signature} {others : List (Node K)} {qs : List Phrase}

/-- If the first phrases are the same, so are the shapes of the first operands. -/
theorem WrittenOver.head_shape (h : WrittenOver target s operands ps)
    (h' : WrittenOver target t others qs) (alike : ReadAlike target operands others)
    (heads : ps.head? = qs.head?) : s.operands.head? = t.operands.head? := by
  rcases h with ⟨_, shapes, parts⟩
  rcases h' with ⟨_, shapes', parts'⟩
  rw [← shapes, ← shapes']
  cases parts with
  | nil =>
      cases parts' with
      | nil => rfl
      | cons => exact absurd heads nofun
  | @cons _ m _ _ first _ =>
      cases parts' with
      | nil => exact absurd heads nofun
      | @cons _ n _ _ first' _ =>
          rw [Option.some.inj heads] at first
          have same := alike m List.mem_cons_self n List.mem_cons_self (first.text_eq first')
          have shape : m.shape = n.shape := by
            rw [← m.shape_printed target, same, n.shape_printed]
          rw [List.map_cons, List.map_cons, List.head?_cons, List.head?_cons, shape]

/-- Applications that are written alike are of one operator and over operands that are written
alike. -/
theorem WrittenOver.unique (h : WrittenOver target s operands ps)
    (h' : WrittenOver target t others qs) (alike : ReadAlike target operands others)
    (phrase : (spelling target s).phrase ps = (spelling target t).phrase qs) :
    s = t ∧ operands.map (Node.printed target) = others.map (Node.printed target) := by
  rcases Spelling.phrase_inj h.takes h'.takes phrase with ⟨written, rfl⟩ | ⟨outer, heads⟩
  · have printed : operands.map (Node.printed target) = others.map (Node.printed target) :=
      map_eq_map h.parts h'.parts fun _ m hm n hn spells spells' =>
        alike m hm n hn (spells.text_eq spells')
    have shapes : s.operands = t.operands := by
      rw [← h.shapes, ← h'.shapes, ← Node.shapes_printed target, printed, Node.shapes_printed]
    exact ⟨signature_unique target h.listed h'.listed written shapes, printed⟩
  · -- the first factor of an outer product is a column, and that of a product is not
    have first := h.head_shape h' alike heads
    rcases outer with ⟨column, product⟩ | ⟨product, column⟩
    · exact absurd first (outer_ne_product target s h.listed column t h'.listed product)
    · exact absurd first.symm (outer_ne_product target t h'.listed column s h.listed product)

end

/-! ## Every expression has a phrase -/

variable [Numeral.Legible K]

theorem exists_writesLiteral {v : Literal K} (complete : v.Complete)
    (definite : v.shape ≠ .genericScalar) :
    ∃ p, WritesLiteral target v p ∧ p.Spells (target.literal v) := by
  by_cases scalar : v.shape.isScalar = true
  · have shape : v.shape = .scalar := by
      revert scalar definite
      cases v.shape <;> decide
    have single : v.components.length = 1 := by
      rw [complete, shape]
      rfl
    rcases List.length_eq_one_iff.1 single with ⟨x, components⟩
    rcases Numeral.spells_code target x with ⟨p, numeral, spells⟩
    have literal : target.literal v = Numeral.code target x := by
      rw [Target.literal, Literal.scalar?, if_pos scalar, Literal.component, components]
      rfl
    exact ⟨p, .scalar components shape numeral spells, literal ▸ spells⟩
  · have vector : v.shape.isScalar = false := by simpa using scalar
    rcases exists_forall₂ fun x (_ : x ∈ v.components) => Numeral.spells_code target x with
      ⟨ps, parts⟩
    have literal : target.literal v =
        (containerSpelling v.shape target).text (v.components.map (Numeral.code target)) := by
      rw [Target.literal, Literal.scalar?, if_neg scalar]
      cases target <;> rfl
    have texts : List.Forall₂ Phrase.Spells ps (v.components.map (Numeral.code target)) :=
      List.forall₂_map_right_iff.2 (parts.imp fun _ _ h => h.2)
    refine ⟨_, .container vector complete parts, ?_⟩
    rw [literal]
    exact Spelling.spells_text (proper_container vector target).1
      (takes_of_components target vector complete parts) texts

/-- The text of an expression is spelled by the phrase that is made for it. -/
theorem exists_writes (target : Target) (readable : Readable n) :
    ∃ p, Writes target n p ∧ p.Spells (text target n) := by
  induction n using Node.induct with
  | constant id v =>
      have complete : v.Complete := by
        cases readable.typed with
        | constant _ complete => exact complete
      rcases exists_writesLiteral complete (readable.definite _ (.refl _)) with ⟨p, writes, spells⟩
      exact ⟨p, .constant writes, spells⟩
  | leaf id name s =>
      have isWord := (readable.names id name s (.refl _)).isWord
      exact ⟨_, .leaf id name s, .word isWord, by rw [Phrase.chars]; rfl⟩
  | application id s operands ih =>
      rcases readable.typed.operator with ⟨o, rfl, shapes, _⟩
      have plain : IsPlain o.signature.name := readable.primitive id _ operands (.refl _)
      have listed := Operator.mem_plainSignatures plain
      have parts := fun m hm => (ih m hm (readable.operand hm)).imp fun _ h => h.2
      rcases exists_forall₂ parts with ⟨ps, parts⟩
      have texts : List.Forall₂ Phrase.Spells ps (operands.map (text target)) :=
        List.forall₂_map_right_iff.2 parts
      have written : WrittenOver target o.signature operands ps := ⟨listed, shapes, parts⟩
      refine ⟨_, .application written, ?_⟩
      rw [text_application plain]
      exact Spelling.spells_text (proper_spelling target _ listed).1 written.takes texts

/-! ## Numbers are constants -/

section

variable {id : NodeId} {s : Signature} {operands : List (Node K)} {ps : List Phrase}

/-- A numeral without a sign is a constant. -/
theorem isConstant_of_word (readable : Readable n) {body : String}
    (isBody : Numeral.IsBody target body) (spells : (Phrase.word body).Spells (text target n)) :
    n.isConstant = true := by
  rcases exists_writes target readable with ⟨p, writes, spells'⟩
  have phrase := spells.unique spells'
  cases writes with
  | constant _ => rfl
  | leaf id name s =>
      have identifier := readable.names id name s (.refl _)
      exact absurd (Phrase.word.inj phrase).symm (identifier.ne_body isBody)
  | application h => exact absurd phrase.symm (Spelling.phrase_ne_word h.takes body)

/-- A numeral is a constant, since a negative is never that of a constant. -/
theorem isConstant_of_isNumeral (readable : Readable n) (numeral : p.IsNumeral target)
    (spells : p.Spells (text target n)) : n.isConstant = true := by
  cases numeral with
  | positive isBody => exact isConstant_of_word readable isBody spells
  | @negative body isBody =>
      rcases exists_writes target readable with ⟨p, writes, spells'⟩
      have phrase := spells.unique spells'
      cases writes with
      | constant _ => rfl
      | leaf => exact absurd phrase nofun
      | application h =>
          have single : Spelling.negative.Takes [Phrase.word body].length := rfl
          rcases Spelling.phrase_inj single h.takes phrase with
            ⟨written, rfl⟩ | ⟨⟨impossible, _⟩ | ⟨impossible, _⟩, _⟩
          · rcases readable.exists_operand h (.inl written.symm) with ⟨m, hm, free⟩
            rcases h.parts with _ | ⟨inner, ⟨⟩⟩
            rw [List.mem_singleton.1 hm] at free
            have constant := isConstant_of_word (readable.operand List.mem_cons_self) isBody inner
            exact absurd constant (by simp [free])
          · exact absurd impossible nofun
          · exact absurd impossible nofun

theorem constants_of_numerals (readable : ∀ m ∈ operands, Readable m)
    (parts : List.Forall₂ (fun p m => p.Spells (text target m)) ps operands)
    (numerals : ∀ p ∈ ps, p.IsNumeral target) : ∀ m ∈ operands, m.isConstant = true := by
  induction parts with
  | nil => exact fun m hm => absurd hm List.not_mem_nil
  | cons first _ ih =>
      rw [List.forall_mem_cons] at readable numerals
      exact List.forall_mem_cons.2
        ⟨isConstant_of_isNumeral readable.1 numerals.1 first, ih readable.2 numerals.2⟩

/-- A constant is not written like an application. -/
theorem WritesLiteral.ne_application {v : Literal K} (literal : WritesLiteral target v p)
    (readable : Readable (.application id s operands)) (h : WrittenOver target s operands ps)
    (spells : p.Spells (text target (.application id s operands))) :
    p ≠ (spelling target s).phrase ps := by
  intro phrase
  cases literal with
  | scalar _ _ numeral _ => exact absurd (isConstant_of_isNumeral readable numeral spells) nofun
  | container vector complete components =>
      have takes := takes_of_components target vector complete components
      obtain ⟨written, rfl⟩ := container_unique takes h.takes phrase
      have known : v.shape ∈ Shape.all := by
        cases v.shape <;> decide
      rcases readable.exists_operand h (.inr ⟨_, known, vector, written⟩) with ⟨m, hm, free⟩
      have numerals := ((List.forall₂_and_left _ _).1 components).1
      have constant := constants_of_numerals (fun m hm => readable.operand hm) h.parts numerals m hm
      exact absurd constant (by simp [free])

end

/-! ## The tree -/

/-- Expressions with one phrase have one tree, if operands with one text do. -/
theorem Writes.printed_eq (writes : Writes target m p) (writes' : Writes target n q) (same : p = q)
    (spells : p.Spells (text target m)) (spells' : q.Spells (text target n)) (hm : Readable m)
    (hn : Readable n) (shared : m.SharesLeaves n) (alike : ReadAlike target m.operands n.operands) :
    m.printed target = n.printed target := by
  cases writes with
  | @constant id v _ literal =>
      cases writes' with
      | @constant j w _ literal' =>
          rcases literal.unique literal' same with ⟨shape, components⟩
          rw [Node.printed, Node.printed, Node.tree, Node.tree, Tree.map, Tree.map, shape, components]
      | leaf j name t => exact absurd same (literal.ne_word (hn.names j name t (.refl _)))
      | application h => exact absurd same (literal.ne_application hn h (same ▸ spells'))
  | leaf id name s =>
      cases writes' with
      | constant literal =>
          exact absurd same.symm (literal.ne_word (hm.names id name s (.refl _)))
      | leaf j other t =>
          obtain rfl := Phrase.word.inj same
          rcases shared id j name s t (.refl _) (.refl _) with ⟨rfl, rfl⟩
          rfl
      | application h => exact absurd same.symm (Spelling.phrase_ne_word h.takes name)
  | application h =>
      cases writes' with
      | constant literal =>
          exact absurd same.symm (literal.ne_application hm h (same ▸ spells))
      | leaf j name t => exact absurd same (Spelling.phrase_ne_word h.takes name)
      | application h' =>
          rcases h.unique h' alike same with ⟨rfl, printed⟩
          rw [Node.printed_application, Node.printed_application, printed]

/-- Expressions with one text have one tree. -/
theorem printed_eq (hm : Readable m) (hn : Readable n) (shared : m.SharesLeaves n)
    (same : text target m = text target n) : m.printed target = n.printed target := by
  have step {m n : Node K} (hm : Readable m) (hn : Readable n) (shared : m.SharesLeaves n)
      (same : text target m = text target n) (alike : ReadAlike target m.operands n.operands) :
      m.printed target = n.printed target := by
    rcases exists_writes target hm with ⟨p, writes, spells⟩
    rcases exists_writes target hn with ⟨q, writes', spells'⟩
    have phrase := (same ▸ spells).unique spells'
    exact writes.printed_eq writes' phrase spells spells' hm hn shared alike
  -- by induction on the first expression, with any second one
  induction m using Node.induct generalizing n with
  | constant id v => exact step hm hn shared same fun k hk => absurd hk List.not_mem_nil
  | leaf id name s => exact step hm hn shared same fun k hk => absurd hk List.not_mem_nil
  | application id s operands ih =>
      refine step hm hn shared same fun k hk l hl => ?_
      exact ih k hk (hm.operand hk) (hn.operand hl)
        (shared.of_reaches (.of_mem_operands hk) (.of_mem_operands hl))

/-! ## Rendering -/

section

variable {es ms es' ns : List (Node K)} {s s' : Workspace K × Memo K}

omit [Numeral.Legible K] in
theorem Compiled.readable {ρ : Assignment K} (h : Compiled ρ es ms s) (hm : m ∈ ms)
    (names : m.NamesIdentifiers) (definite : m.Definite) : Readable m where
  typed := h.typed m (h.lowered m hm).1
  primitive := (h.lowered m hm).2
  folded := h.folded m (h.lowered m hm).1
  names := names
  definite := definite

omit [Numeral.Legible K] in
theorem Readable.render_eq (h : Readable m) (coherent : Node.Coherent [m]) (target : Target) :
    (Registry.standard : Registry K).render target m = .ok (text target m) :=
  render_eq_code coherent (h.primitive.renders h.typed target)

/-- Whatever has been built and lowered can be rendered; and two expressions that are rendered to one
text have one tree, if their leaves have identifiers for names and leaves of one name are one leaf. -/
theorem render_unambiguous (target : Target)
    (first : (Registry.standard : Registry K).Compiles es ms s)
    (second : (Registry.standard : Registry K).Compiles es' ns s') (hm : m ∈ ms) (hn : n ∈ ns)
    (names : m.NamesIdentifiers ∧ n.NamesIdentifiers) (definite : m.Definite ∧ n.Definite)
    (shared : m.SharesLeaves n) :
    ∃ text text', (Registry.standard : Registry K).render target m = .ok text ∧
      (Registry.standard : Registry K).render target n = .ok text' ∧
      (text = text' → m.printed target = n.printed target) := by
  have some_assignment : Assignment K := fun _ => .zero .scalar
  have compiled_m := compiled some_assignment first
  have compiled_n := compiled some_assignment second
  have readable_m := compiled_m.readable hm names.1 definite.1
  have readable_n := compiled_n.readable hn names.2 definite.2
  exact ⟨_, _, readable_m.render_eq (compiled_m.coherent hm) target,
    readable_n.render_eq (compiled_n.coherent hn) target, printed_eq readable_m readable_n shared⟩

/-- Two outer products, each written as a product with a transpose, are told apart by their texts. -/
theorem render_unambiguous_outer :
    let u : Node Float := .leaf 0 "u" .vec3
    let v : Node Float := .leaf 1 "v" .vec3
    let outer (a b : Node Float) : Node Float :=
      .application 2 ⟨.mat33, "outer", [.vec3, .vec3]⟩ [a, b]
    ∀ target, ∃ text text',
      (Registry.standard : Registry Float).render target (outer u v) = .ok text ∧
        (Registry.standard : Registry Float).render target (outer v u) = .ok text' ∧
          text ≠ text' := by
  intro u v outer target
  have leaves : (Registry.standard : Registry Float).Compiles [v, u] [] (⟨2, #[]⟩, ∅) :=
    .build (c := .leaf "v" .vec3)
      (.build (c := .leaf "u" .vec3) (.start ⟨0, #[]⟩) trivial trivial rfl) trivial trivial rfl
  have all_operands {P : Node Float → Prop} (hu : P u) (hv : P v) :
      (∀ m ∈ [u, v], P m) ∧ ∀ m ∈ [v, u], P m :=
    ⟨List.forall_mem_cons.2 ⟨hu, List.forall_mem_singleton.2 hv⟩,
      List.forall_mem_cons.2 ⟨hv, List.forall_mem_singleton.2 hu⟩⟩
  have around : (∀ m ∈ [u, v], Node.Below [v, u] m) ∧ ∀ m ∈ [v, u], Node.Below [v, u] m :=
    all_operands (.of_mem (by simp)) (.of_mem (by simp))
  have primitive : Primitive (outer u v) ∧ Primitive (outer v u) := by
    have operands := all_operands (P := Primitive) (Node.appliesOnly_of_plain rfl)
      (Node.appliesOnly_of_plain rfl)
    exact ⟨Node.appliesOnly_application.2 ⟨by decide, operands.1⟩,
      Node.appliesOnly_application.2 ⟨by decide, operands.2⟩⟩
  have names : (outer u v).NamesIdentifiers ∧ (outer v u).NamesIdentifiers := by
    have letters : ∀ c ∈ ['u', 'v'], Text.isAlphanumeric c = true := by decide +kernel
    have first : IsIdentifier "u" := by
      refine ⟨by decide, List.forall_mem_singleton.2 (.inl (letters 'u' (by decide))), ?_, by decide⟩
      rintro _ ⟨⟩
      decide
    have second : IsIdentifier "v" := by
      refine ⟨by decide, List.forall_mem_singleton.2 (.inl (letters 'v' (by decide))), ?_, by decide⟩
      rintro _ ⟨⟩
      decide
    have operands := all_operands (P := Node.NamesIdentifiers) (.leaf first) (.leaf second)
    exact ⟨.application operands.1, .application operands.2⟩
  have definite : (outer u v).Definite ∧ (outer v u).Definite := by
    have operands := all_operands (P := Node.Definite) (.leaf (by decide)) (.leaf (by decide))
    exact ⟨.application (by decide) operands.1, .application (by decide) operands.2⟩
  have shared : (outer u v).SharesLeaves (outer v u) := by
    have one {a : Node Float} (hu : a.SharesLeaves u) (hv : a.SharesLeaves v) :
        a.SharesLeaves (outer v u) :=
      .symm (.application (all_operands hu.symm hv.symm).2)
    refine .application (all_operands (one ?_ ?_) (one ?_ ?_)).1
    all_goals exact .leaf (by decide)
  rcases compiles_plain (leaves.build (c := .apply "outer" [u, v]) trivial ⟨trivial, around.1⟩ rfl)
    List.mem_cons_self primitive.1 with ⟨s, first⟩
  rcases compiles_plain (leaves.build (c := .apply "outer" [v, u]) trivial ⟨trivial, around.2⟩ rfl)
    List.mem_cons_self primitive.2 with ⟨s', second⟩
  rcases render_unambiguous target first second List.mem_cons_self List.mem_cons_self names definite
    shared with ⟨text, text', render, render', same⟩
  refine ⟨text, text', render, render', fun equal => ?_⟩
  have trees := same equal
  rw [Node.printed_application, Node.printed_application] at trees
  have operands := (Tree.application.inj trees).2
  have first := (Tree.leaf.inj (List.cons.inj operands).1).1
  exact absurd first (by decide)

end

end Standard

end SymbolicLinalg
