import Mathlib.Data.List.GetD
import SymbolicLinalg.Kernel
import SymbolicLinalg.Proofs.PostOrder

/-!
# Rendering — the text of an expression

Source text is written from a table of the texts of operands.  What comes out is described without a
table: a `Form` is an expression as a tree, in which hoisted nodes are referred to by the numbers of
their temporaries, and its `code` is defined by recursion.

* `render_eq_code`: rendering an expression comes to its code, if all operators have renderers;
* `code_body`: where temporaries stand for the code of their nodes, referring to nodes and writing
  them out come to the same;
* `fill_template_reference`: for renderers that only concatenate, the code of a form is a `Template`
  whose holes are the references to temporaries.
-/

namespace SymbolicLinalg

variable {K : Type}

/-! ## Forms -/

/-- An expression as it is written, some parts of which are only referred to. -/
inductive Form (K : Type) where
  | constant (value : Literal K)
  | leaf (name : String)
  | temporary (index : Nat)
  | application (operator : Signature) (operands : List (Form K))

namespace Node

mutual

/-- A node written out over its operands; the hoisted ones are referred to by their places. -/
def body (hoisted : List NodeId) (n : Node K) : Form K :=
  match n with
  | .constant _ value => .constant value
  | .leaf _ name _ => .leaf name
  | .application _ operator operands => .application operator (references hoisted operands)

def references (hoisted : List NodeId) (nodes : List (Node K)) : List (Form K) :=
  match nodes with
  | [] => []
  | n :: rest =>
      (if n.id ∈ hoisted then .temporary (hoisted.idxOf n.id) else n.body hoisted) ::
        references hoisted rest

end

/-- A node as it is written where it is used. -/
def reference (hoisted : List NodeId) (n : Node K) : Form K :=
  if n.id ∈ hoisted then .temporary (hoisted.idxOf n.id) else n.body hoisted

theorem references_eq_map (hoisted : List NodeId) (nodes : List (Node K)) :
    references hoisted nodes = nodes.map (reference hoisted) := by
  induction nodes with
  | nil => rw [references, List.map_nil]
  | cons n rest ih => rw [references, ih, List.map_cons, reference]

@[simp] theorem body_application (hoisted : List NodeId) (id : NodeId) (s : Signature)
    (operands : List (Node K)) :
    body hoisted (.application id s operands) =
      .application s (operands.map (reference hoisted)) := by
  rw [body, references_eq_map]

@[simp] theorem reference_nil (n : Node K) : n.reference [] = n.body [] := by
  simp [reference]

end Node

namespace Registry

/-- The renderer of an operator; without one, there is no text. -/
def renderer (r : Registry K) (target : Target) (s : Signature) : List String → String :=
  ((r.hooks s).render target).getD fun _ => ""

/-- The operator has a renderer for the target. -/
def Renders (r : Registry K) (target : Target) (s : Signature) : Prop :=
  ((r.hooks s).render target).isSome

/-- The operator that a node applies, if it has no renderer. -/
def missingAt? (r : Registry K) (target : Target) (n : Node K) : Option Signature :=
  n.operator?.filter fun s => ((r.hooks s).render target).isNone

/-- The first operator without a renderer that is applied in a list of nodes. -/
def missing? (r : Registry K) (target : Target) (nodes : List (Node K)) : Option Signature :=
  nodes.findSome? (r.missingAt? target)

section

variable {r : Registry K} {target : Target} {s : Signature} {n : Node K} {nodes : List (Node K)}

theorem missingAt?_eq_some :
    r.missingAt? target n = some s ↔ n.operator? = some s ∧ ¬ r.Renders target s := by
  simp [missingAt?, Renders]

theorem missingAt?_eq_none :
    r.missingAt? target n = none ↔ ∀ s, n.operator? = some s → r.Renders target s := by
  simp [missingAt?, Renders, Option.isSome_iff_ne_none]

theorem missing?_eq_none :
    r.missing? target nodes = none ↔
      ∀ n ∈ nodes, ∀ s, n.operator? = some s → r.Renders target s := by
  simp only [missing?, List.findSome?_eq_none_iff, missingAt?_eq_none]

/-- The nodes before the first one whose operator has no renderer can be rendered. -/
theorem missing?_eq_some :
    r.missing? target nodes = some s ↔ ∃ before id operands after,
      nodes = before ++ .application id s operands :: after ∧ ¬ r.Renders target s ∧
        ∀ n ∈ before, ∀ t, n.operator? = some t → r.Renders target t := by
  simp only [missing?, List.findSome?_eq_some_iff, missingAt?_eq_some, missingAt?_eq_none]
  constructor
  · rintro ⟨before, n, after, rfl, ⟨applied, missing⟩, renders⟩
    cases n with
    | constant | leaf => exact absurd applied nofun
    | application id t operands =>
        obtain rfl := Option.some.inj applied
        exact ⟨before, id, operands, after, rfl, missing, renders⟩
  · rintro ⟨before, id, operands, after, rfl, missing, renders⟩
    exact ⟨before, _, after, rfl, ⟨rfl, missing⟩, renders⟩

end

end Registry

namespace Form

section

variable [Arithmetic K] [Numeral K]

mutual

/-- The source text of a form, given the texts that temporaries stand for. -/
def code (r : Registry K) (target : Target) (named : Nat → String) (form : Form K) : String :=
  match form with
  | .constant value => target.literal value
  | .leaf name => name
  | .temporary index => named index
  | .application s operands => r.renderer target s (codes r target named operands)

def codes (r : Registry K) (target : Target) (named : Nat → String) (forms : List (Form K)) :
    List String :=
  match forms with
  | [] => []
  | form :: rest => form.code r target named :: codes r target named rest

end

theorem codes_eq_map (r : Registry K) (target : Target) (named : Nat → String)
    (forms : List (Form K)) : codes r target named forms = forms.map (code r target named) := by
  induction forms with
  | nil => rw [codes, List.map_nil]
  | cons form rest ih => rw [codes, ih, List.map_cons]

@[simp] theorem code_application (r : Registry K) (target : Target) (named : Nat → String)
    (s : Signature) (operands : List (Form K)) :
    (application s operands).code r target named =
      r.renderer target s (operands.map (code r target named)) := by
  rw [code, codes_eq_map]

@[simp] theorem code_temporary (r : Registry K) (target : Target) (named : Nat → String)
    (index : Nat) : (temporary index : Form K).code r target named = named index := by
  rw [code]

end

mutual

/-- The temporaries that a form refers to. -/
def temporaries (form : Form K) : List Nat :=
  match form with
  | .constant _ | .leaf _ => []
  | .temporary index => [index]
  | .application _ operands => temporariesAll operands

def temporariesAll (forms : List (Form K)) : List Nat :=
  match forms with
  | [] => []
  | form :: rest => form.temporaries ++ temporariesAll rest

end

theorem mem_temporariesAll {forms : List (Form K)} {index : Nat} :
    index ∈ temporariesAll forms ↔ ∃ form ∈ forms, index ∈ form.temporaries := by
  induction forms with
  | nil => simp [temporariesAll]
  | cons form rest ih => simp [temporariesAll, ih]

end Form

/-- A node written out refers to hoisted nodes below its operands only. -/
theorem Node.temporaries_body {hoisted : List NodeId} {n : Node K} {index : Nat}
    (refers : index ∈ (n.body hoisted).temporaries) :
    ∃ m ∈ n.operands, ∃ x, m.Reaches x ∧ x.id ∈ hoisted ∧ index = hoisted.idxOf x.id := by
  induction n using Node.induct with
  | constant | leaf => simp [Node.body, Form.temporaries] at refers
  | application id s operands ih =>
      rw [Node.body_application, Form.temporaries, Form.mem_temporariesAll] at refers
      rcases refers with ⟨form, hform, refers⟩
      rcases List.mem_map.1 hform with ⟨m, hm, rfl⟩
      refine ⟨m, hm, ?_⟩
      rw [Node.reference] at refers
      split at refers
      · rename_i among
        rw [Form.temporaries, List.mem_singleton] at refers
        exact ⟨m, .refl m, among, refers⟩
      · rcases ih m hm refers with ⟨k, hk, x, below, found⟩
        exact ⟨x, .step hk below, found⟩

theorem Node.temporaries_reference {hoisted : List NodeId} {n : Node K} {index : Nat}
    (refers : index ∈ (n.reference hoisted).temporaries) :
    ∃ x, n.Reaches x ∧ x.id ∈ hoisted ∧ index = hoisted.idxOf x.id := by
  rw [Node.reference] at refers
  split at refers
  · rename_i among
    rw [Form.temporaries, List.mem_singleton] at refers
    exact ⟨n, .refl n, among, refers⟩
  · rcases Node.temporaries_body refers with ⟨m, hm, x, below, found⟩
    exact ⟨x, .step hm below, found⟩

/-! ## Texts by recursion -/

section

variable [Arithmetic K] [Numeral K] {r : Registry K} {target : Target} {n : Node K}
  {hoisted : List NodeId} {named : Nat → String}

/-- The text of an expression with all parts written out. -/
def Registry.code (r : Registry K) (target : Target) (n : Node K) : String :=
  (n.body []).code r target Kernel.temporaryName

theorem Registry.code_application (id : NodeId) (s : Signature) (operands : List (Node K)) :
    r.code target (.application id s operands) =
      r.renderer target s (operands.map (r.code target)) := by
  rw [code, Node.body_application, Form.code_application, List.map_map]
  refine congrArg (r.renderer target s) (List.map_congr_left fun m _ => ?_)
  exact congrArg (Form.code r target Kernel.temporaryName) (Node.reference_nil m)

/-- Where the temporaries stand for the code of the hoisted nodes, a node that refers to them has the
code of the node written out. -/
theorem code_body
    (stands : ∀ m ∈ n.operands, ∀ x, m.Reaches x → x.id ∈ hoisted →
      named (hoisted.idxOf x.id) = r.code target x) :
    (n.body hoisted).code r target named = r.code target n := by
  induction n using Node.induct with
  | constant id v => rw [Registry.code, Node.body, Node.body, Form.code, Form.code]
  | leaf id name s => rw [Registry.code, Node.body, Node.body, Form.code, Form.code]
  | application id s operands ih =>
      have same (m : Node K) (hm : m ∈ operands) :
          (m.reference hoisted).code r target named = r.code target m := by
        rw [Node.reference]
        split
        · rename_i among
          rw [Form.code_temporary, stands m hm m (.refl m) among]
        · refine ih m hm fun k hk x below => stands m hm x ?_
          exact .step hk below
      rw [Registry.code_application, Node.body_application, Form.code_application, List.map_map]
      exact congrArg (r.renderer target s) (List.map_congr_left same)

theorem code_reference
    (stands : ∀ x, n.Reaches x → x.id ∈ hoisted →
      named (hoisted.idxOf x.id) = r.code target x) :
    (n.reference hoisted).code r target named = r.code target n := by
  rw [Node.reference]
  split
  · rename_i among
    rw [Form.code_temporary, stands n (.refl n) among]
  · exact code_body fun m hm x below => stands x (.step hm below)

/-! ## The table of texts -/

theorem operandTexts_eq_ok {texts : Texts} {operands : List (Node K)}
    (known : ∀ m ∈ operands, texts[m.id]? = some ((m.reference hoisted).code r target named)) :
    operands.mapM (Registry.operandText texts) =
      .ok (operands.map fun m => (m.reference hoisted).code r target named) := by
  induction operands with
  | nil => rfl
  | cons m rest ih =>
      rw [List.forall_mem_cons] at known
      rw [List.mapM_cons, ih known.2, Registry.operandText, known.1]
      rfl

/-- The text of a node over the texts of its operands. -/
theorem nodeText_eq_ok {texts : Texts}
    (known : ∀ m ∈ n.operands,
      texts[m.id]? = some ((m.reference hoisted).code r target named))
    (renders : ∀ s, n.operator? = some s → r.Renders target s) :
    r.nodeText target texts n = .ok ((n.body hoisted).code r target named) := by
  cases n with
  | constant id v => rw [Registry.nodeText, Node.body, Form.code]
  | leaf id name s => rw [Registry.nodeText, Node.body, Form.code]
  | application id s operands =>
      rcases Option.isSome_iff_exists.1 (renders s rfl) with ⟨renderer, hook⟩
      rw [Node.operands_application] at known
      rw [Registry.nodeText, hook]
      dsimp only
      rw [operandTexts_eq_ok known, Node.body_application, Form.code_application,
        Registry.renderer, hook, List.map_map]
      rfl

theorem nodeText_eq_error {texts : Texts} {id : NodeId} {s : Signature} {operands : List (Node K)}
    (missing : ¬ r.Renders target s) :
    r.nodeText target texts (.application id s operands) =
      .error (.error (.missingRenderer s target.name)) := by
  rw [Registry.nodeText, Option.not_isSome_iff_eq_none.1 missing]

/-- Nodes are rendered after their operands, which puts their codes into the table. -/
theorem lastText_append {done before later : List (Node K)} {texts : Texts}
    (sorted : Node.UsersFirst (done ++ before ++ later).reverse)
    (known : ∀ m ∈ done, texts[m.id]? = some (r.code target m))
    (renders : ∀ n ∈ before, ∀ s, n.operator? = some s → r.Renders target s) (text : String) :
    ∃ texts' : Texts, (∀ m ∈ done ++ before, texts'[m.id]? = some (r.code target m)) ∧
      r.lastText target (before ++ later) texts text =
        r.lastText target later texts' ((before.getLast?.map (r.code target)).getD text) := by
  induction before generalizing done texts text with
  | nil => exact ⟨texts, by simpa using known, rfl⟩
  | cons n rest ih =>
      rw [List.forall_mem_cons] at renders
      rw [List.append_assoc, List.cons_append] at sorted
      rcases sorted.before with ⟨operands, distinct, _⟩
      have rendered : r.nodeText target texts n = .ok (r.code target n) := by
        refine nodeText_eq_ok (fun m hm => ?_) renders.1
        rw [known m (operands m hm), Node.reference_nil, Registry.code]
      have next : ∀ m ∈ done ++ [n],
          (texts.insert n.id (r.code target n))[m.id]? = some (r.code target m) := by
        intro m hm
        rw [Std.HashMap.getElem?_insert]
        rcases List.mem_append.1 hm with hm | hm
        · rw [if_neg (by simpa using (distinct m hm).symm), known m hm]
        · rw [List.mem_singleton.1 hm, if_pos (by simp)]
      have split : done ++ n :: (rest ++ later) = done ++ [n] ++ rest ++ later := by simp
      rcases ih (split ▸ sorted) next renders.2 (r.code target n) with ⟨texts', known', later'⟩
      refine ⟨texts', by simpa using known', ?_⟩
      rw [List.cons_append, Registry.lastText, rendered]
      change r.lastText target (rest ++ later) _ _ = _
      rw [later']
      cases rest with
      | nil => rfl
      | cons m rest => simp [List.getLast?_cons]

/-- The text of the last node is its code. -/
theorem lastText_eq_ok {nodes done : List (Node K)} {texts : Texts}
    (sorted : Node.UsersFirst (done ++ nodes).reverse)
    (known : ∀ m ∈ done, texts[m.id]? = some (r.code target m))
    (renders : ∀ n ∈ nodes, ∀ s, n.operator? = some s → r.Renders target s) (text : String) :
    r.lastText target nodes texts text = .ok ((nodes.getLast?.map (r.code target)).getD text) := by
  rw [← List.append_nil (done ++ nodes)] at sorted
  rcases lastText_append sorted known renders text with ⟨texts', -, run⟩
  rw [← List.append_nil nodes, run, List.append_nil, Registry.lastText]

/-- Where operators have no renderers, the first one of them is reported. -/
theorem lastText_eq_error {nodes done : List (Node K)} {texts : Texts} {s : Signature}
    (sorted : Node.UsersFirst (done ++ nodes).reverse)
    (known : ∀ m ∈ done, texts[m.id]? = some (r.code target m))
    (missing : r.missing? target nodes = some s) (text : String) :
    r.lastText target nodes texts text = .error (.error (.missingRenderer s target.name)) := by
  rcases Registry.missing?_eq_some.1 missing with ⟨before, id, operands, after, rfl, none, renders⟩
  rw [← List.append_assoc] at sorted
  rcases lastText_append sorted known renders text with ⟨texts', -, run⟩
  rw [run, Registry.lastText, nodeText_eq_error none]
  rfl

/-- An expression all of whose operators have renderers is rendered to its code. -/
theorem render_eq_code (coherent : Node.Coherent [n])
    (renders : n.AppliesOnly (r.Renders target)) : r.render target n = .ok (r.code target n) := by
  have sorted : Node.UsersFirst ([] ++ n.postOrder).reverse := Node.usersFirst_postOrder coherent
  rw [Registry.render, lastText_eq_ok sorted (by simp), Node.getLast?_postOrder]
  · rfl
  · intro m hm s hs
    cases m with
    | constant | leaf => exact absurd hs nofun
    | application id t operands =>
        obtain rfl := Option.some.inj hs
        exact renders id t operands ((Node.mem_postOrder_iff coherent).1 hm)

end

/-! ## Templates -/

/-- A piece of a text: fixed, or left open for a part that is known by its place. -/
inductive Piece where
  | fixed (text : String)
  | hole (place : Nat)

/-- A text with holes. -/
abbrev Template := List Piece

namespace Template

/-- The text in which every hole has been filled. -/
def fill (parts : Nat → String) : Template → String
  | [] => ""
  | .fixed text :: rest => text ++ fill parts rest
  | .hole place :: rest => parts place ++ fill parts rest

/-- The template in which every hole has been replaced by a template. -/
def graft (parts : Nat → Template) : Template → Template
  | [] => []
  | .fixed text :: rest => .fixed text :: graft parts rest
  | .hole place :: rest => parts place ++ graft parts rest

theorem fill_append (parts : Nat → String) (t u : Template) :
    fill parts (t ++ u) = fill parts t ++ fill parts u := by
  induction t with
  | nil => simp [fill]
  | cons piece rest ih =>
      cases piece with
      | fixed | hole => simp [fill, ih, String.append_assoc]

/-- Filling after grafting fills what has been grafted. -/
theorem fill_graft (parts : Nat → String) (grafts : Nat → Template) (t : Template) :
    fill parts (t.graft grafts) = t.fill fun place => fill parts (grafts place) := by
  induction t with
  | nil => rfl
  | cons piece rest ih =>
      cases piece with
      | fixed text => rw [graft, fill, fill, ih]
      | hole place => rw [graft, fill, fill_append, ih]

/-- The texts of temporaries that have been declared one after the other, with the texts of the
earlier ones in place of the references. -/
def unfold (declared : List Template) : List String :=
  declared.foldl (fun texts t => texts ++ [t.fill fun place => texts.getD place ""]) []

theorem unfold_snoc (declared : List Template) (t : Template) :
    unfold (declared ++ [t]) =
      unfold declared ++ [t.fill fun place => (unfold declared).getD place ""] := by
  rw [unfold, List.foldl_append, ← unfold]
  rfl

end Template

section

variable [Arithmetic K] [Numeral K] {r : Registry K} {target : Target} {n : Node K}

mutual

/-- The text of a form, open at the references to temporaries, where the text of an application is a
template over the texts of its operands. -/
def Form.template (target : Target) (templates : Signature → Template) (form : Form K) : Template :=
  match form with
  | .constant value => [.fixed (target.literal value)]
  | .leaf name => [.fixed name]
  | .temporary index => [.hole index]
  | .application s operands =>
      (templates s).graft fun place => (Form.templatesOf target templates operands).getD place []

def Form.templatesOf (target : Target) (templates : Signature → Template) (forms : List (Form K)) :
    List Template :=
  match forms with
  | [] => []
  | form :: rest => form.template target templates :: Form.templatesOf target templates rest

end

theorem Form.templatesOf_eq_map (target : Target) (templates : Signature → Template)
    (forms : List (Form K)) :
    Form.templatesOf target templates forms = forms.map (Form.template target templates) := by
  induction forms with
  | nil => rw [Form.templatesOf, List.map_nil]
  | cons form rest ih => rw [Form.templatesOf, ih, List.map_cons]

/-- The renderer concatenates fixed texts and the texts of that many operands. -/
def Registry.Concatenates (r : Registry K) (target : Target) (s : Signature) (template : Template)
    (count : Nat) : Prop :=
  ∀ texts : List String, texts.length = count →
    r.renderer target s texts = template.fill fun place => texts.getD place ""

/-- The renderers of all operators that are applied in the graph concatenate. -/
def Node.Concatenating (r : Registry K) (target : Target) (templates : Signature → Template)
    (n : Node K) : Prop :=
  ∀ id s operands, n.Reaches (.application id s operands) →
    r.Concatenates target s (templates s) operands.length

/-- The code of a form is its template, filled with the texts of the temporaries. -/
theorem fill_template_body {templates : Signature → Template}
    (h : n.Concatenating r target templates) (hoisted : List NodeId) (named : Nat → String) :
    ((n.body hoisted).template target templates).fill named =
      (n.body hoisted).code r target named := by
  induction n using Node.induct with
  | constant id v => simp [Node.body, Form.template, Form.code, Template.fill]
  | leaf id name s => simp [Node.body, Form.template, Form.code, Template.fill]
  | application id s operands ih =>
      have part (m : Node K) (hm : m ∈ operands) :
          ((m.reference hoisted).template target templates).fill named =
            (m.reference hoisted).code r target named := by
        rw [Node.reference]
        split
        · simp [Form.template, Form.code, Template.fill]
        · exact ih m hm fun i t ns below => h i t ns (.step hm below)
      let forms := operands.map (Node.reference hoisted)
      have filled (place : Nat) :
          ((forms.map (Form.template target templates)).getD place []).fill named =
            (forms.map (Form.code r target named)).getD place "" := by
        have parts : forms.map (Form.code r target named) =
            (forms.map (Form.template target templates)).map (Template.fill named) := by
          simp only [forms, List.map_map]
          exact List.map_congr_left fun m hm => (part m hm).symm
        rw [parts]
        rw [show ("" : String) = Template.fill named [] from rfl, List.getD_map]
      rw [Node.body_application, Form.template, Form.templatesOf_eq_map, Template.fill_graft,
        Form.code_application, h id s operands (.refl _) _ (by simp)]
      exact congrArg (fun parts => Template.fill parts (templates s)) (funext filled)

theorem fill_template_reference {templates : Signature → Template}
    (h : n.Concatenating r target templates) (hoisted : List NodeId) (named : Nat → String) :
    ((n.reference hoisted).template target templates).fill named =
      (n.reference hoisted).code r target named := by
  rw [Node.reference]
  split
  · simp [Form.template, Form.code, Template.fill]
  · exact fill_template_body h hoisted named

end

end SymbolicLinalg
