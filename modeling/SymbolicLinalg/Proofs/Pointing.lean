import Mathlib.Data.List.Forall2
import SymbolicLinalg.Error

/-!
# Pointing — the parts of a text that an error is about

The spans of an error count bytes.  A mark is a part of a text together with what stands before and
after it, so a span is right if it begins where the text before the part ends, and is as long as the
part.  Which text an error is reported against, and which parts of it, follows from what its cause
is about.

* `Span.Covers`: a span keeps to the boundaries of characters, and has a given text;
* `Placement.write_eq`: a signature written piece by piece is laid out as `Placement.of` says;
* `Cause.Names`: the text and the parts that a cause speaks of;
* `Error.Pointed`: an error has one span for each label, on the part that the label speaks of;
* `pointed_noOperator` and the like: whatever raises an error points at what it names.
-/

namespace SymbolicLinalg

/-! ## Spans of a text -/

/-- The span begins and ends between characters of the text, and the text between is the part. -/
def Span.Covers (span : Span) (text part : String) : Prop :=
  ∃ start stop : text.Pos, start.offset = ⟨span.start⟩ ∧ stop.offset = ⟨span.stop⟩ ∧
    span.start ≤ span.stop ∧ text.extract start stop = part

/-- A part of a text, with the text before it and the text after it. -/
structure Mark where
  before : String
  part : String
  after : String

namespace Mark

def text (m : Mark) : String :=
  m.before ++ m.part ++ m.after

def span (m : Mark) : Span :=
  Span.place m.before.utf8ByteSize m.part

/-- The whole of a text. -/
def whole (text : String) : Mark :=
  ⟨"", text, ""⟩

@[simp] theorem text_whole (text : String) : (whole text).text = text := by
  simp [whole, Mark.text]

theorem covers (m : Mark) : m.span.Covers m.text m.part := by
  have start : String.Pos.Raw.IsValid m.text ⟨m.span.start⟩ :=
    String.Pos.Raw.isValid_iff_exists_append.2
      ⟨m.before, m.part ++ m.after, String.append_assoc, rfl⟩
  have stop : String.Pos.Raw.IsValid m.text ⟨m.span.stop⟩ := by
    refine String.Pos.Raw.isValid_iff_exists_append.2 ⟨m.before ++ m.part, m.after, rfl, ?_⟩
    rw [String.rawEndPos, String.utf8ByteSize_append]
    rfl
  refine ⟨⟨⟨m.span.start⟩, start⟩, ⟨⟨m.span.stop⟩, stop⟩, rfl, rfl, Nat.le_add_right _ _, ?_⟩
  -- strings are equal when their bytes are, and bytes are cut out at any place
  have bytes : m.text.toByteArray =
      m.before.toByteArray ++ m.part.toByteArray ++ m.after.toByteArray := by
    rw [Mark.text, String.toByteArray_append, String.toByteArray_append]
  have inside : (m.before.toByteArray ++ m.part.toByteArray).extract m.span.start m.span.stop =
      m.part.toByteArray := ByteArray.extract_append_eq_right rfl rfl
  have outside : m.after.toByteArray.extract
      (m.span.start - (m.before.toByteArray ++ m.part.toByteArray).size)
      (m.span.stop - (m.before.toByteArray ++ m.part.toByteArray).size) = .empty := by
    simp [span, Span.place]
  rw [← String.toByteArray_inj, String.toByteArray_extract, bytes, ByteArray.extract_append,
    inside, outside, ByteArray.append_empty]

end Mark

/-! ## Parts of a signature -/

namespace Shape

/-- Shapes at the beginning of an operand list. -/
def leading (shapes : List Shape) : String :=
  String.join (shapes.map (·.name ++ ", "))

/-- Shapes at the end of an operand list. -/
def trailing (shapes : List Shape) : String :=
  String.join (shapes.map (", " ++ ·.name))

theorem intercalate_cons (s : Shape) (after : List Shape) :
    ", ".intercalate ((s :: after).map name) = s.name ++ trailing after := by
  induction after generalizing s with
  | nil => simp [trailing]
  | cons t after ih =>
    rw [List.map_cons, List.map_cons, String.intercalate_cons_cons, ← List.map_cons, ih]
    simp [trailing, String.append_assoc]

theorem intercalate_append (before : List Shape) (s : Shape) (after : List Shape) :
    ", ".intercalate ((before ++ s :: after).map name) =
      leading before ++ s.name ++ trailing after := by
  induction before with
  | nil =>
    rw [List.nil_append, intercalate_cons]
    simp [leading]
  | cons t before ih =>
    rw [List.cons_append, List.map_cons, String.intercalate_cons_of_ne_nil (by simp), ih]
    simp [leading, String.append_assoc]

theorem tuple_append (before : List Shape) (s : Shape) (after : List Shape) :
    tuple (before ++ s :: after) =
      "(" ++ leading before ++ s.name ++ trailing after ++ ")" := by
  rw [tuple, intercalate_append]
  simp [String.append_assoc]

end Shape

namespace Signature

def resultMark (s : Signature) : Mark :=
  ⟨"", s.result.name, " " ++ s.name ++ Shape.tuple s.operands⟩

def nameMark (s : Signature) : Mark :=
  ⟨s.result.name ++ " ", s.name, Shape.tuple s.operands⟩

/-- An operand, between those before it and those after it. -/
def operandMark (s : Signature) (before : List Shape) (operand : Shape) (after : List Shape) :
    Mark :=
  ⟨s.result.name ++ " " ++ s.name ++ "(" ++ Shape.leading before, operand.name,
    Shape.trailing after ++ ")"⟩

variable {s : Signature} {before after : List Shape} {operand : Shape}

theorem text_resultMark (s : Signature) : s.resultMark.text = s.text := by
  simp [resultMark, Mark.text, text, String.append_assoc]

theorem text_nameMark (s : Signature) : s.nameMark.text = s.text := rfl

theorem text_operandMark (h : s.operands = before ++ operand :: after) :
    (s.operandMark before operand after).text = s.text := by
  rw [text, h, Shape.tuple_append]
  simp [operandMark, Mark.text, String.append_assoc]

end Signature

namespace Placement

/-- Writes shapes one after the other, and keeps where each of them stands. -/
def writeShapes (text : String) : List Shape → String × List Span
  | [] => (text, [])
  | s :: rest =>
      let written := text ++ s.name
      let (all, spans) := writeShapes (if rest.isEmpty then written else written ++ ", ") rest
      (all, ⟨text.utf8ByteSize, written.utf8ByteSize⟩ :: spans)

/-- Writes a signature piece by piece, and keeps where each piece begins and ends. -/
def write (result : Option Shape) (name : String) (operands : List Shape) : Placement :=
  let head := (result.map fun r => r.name ++ " ").getD ""
  let named := head ++ name
  let (listed, spans) := writeShapes (named ++ "(") operands
  let text := listed ++ ")"
  { text := text
    result := result.map fun r => ⟨0, r.name.utf8ByteSize⟩
    name := ⟨head.utf8ByteSize, named.utf8ByteSize⟩
    operandList := ⟨named.utf8ByteSize, text.utf8ByteSize⟩
    operands := spans }

theorem writeShapes_eq (text : String) (shapes : List Shape) :
    writeShapes text shapes =
      (text ++ ", ".intercalate (shapes.map Shape.name),
        operandSpans text.utf8ByteSize shapes) := by
  induction shapes generalizing text with
  | nil => simp [writeShapes, operandSpans]
  | cons s rest ih =>
    cases rest with
    | nil => simp [writeShapes, operandSpans, Span.place]
    | cons t others =>
      have separator : ", ".utf8ByteSize = 2 := by decide
      rw [writeShapes, ih]
      simp [operandSpans, Span.place, String.append_assoc, separator, Nat.add_assoc]

/-- The spans that are counted are those of the pieces that are written. -/
theorem write_eq (result : Option Shape) (name : String) (operands : List Shape) :
    write result name operands = of result name operands := by
  have opening : "(".utf8ByteSize = 1 := by decide
  rw [write, writeShapes_eq]
  cases result <;>
    simp [of, Shape.tuple, Span.place, Span.whole, String.append_assoc, opening, Nat.add_assoc]

theorem getElem?_operandSpans (start : Nat) (before : List Shape) (s : Shape)
    (after : List Shape) :
    (operandSpans start (before ++ s :: after))[before.length]? =
      some (Span.place (start + (Shape.leading before).utf8ByteSize) s.name) := by
  induction before generalizing start with
  | nil => simp [operandSpans, Shape.leading]
  | cons t before ih =>
    have separator : ", ".utf8ByteSize = 2 := by decide
    rw [List.cons_append, operandSpans, List.length_cons, List.getElem?_cons_succ, ih]
    simp [Span.place, Shape.leading, separator, Nat.add_assoc]

end Placement

/-! ## What causes speak of -/

/-- The text that a cause is reported against, and the parts of it that the labels speak of. -/
inductive Cause.Names : Cause → String → List Mark → Prop where
  | duplicateDefinition (s : Signature) :
      Names (.duplicateDefinition s.text) s.text [.whole s.text]
  | unknownOperator (name : String) (operands : List Shape) (suggestions : List String) :
      Names (.unknownOperator name operands suggestions) (name ++ Shape.tuple operands)
        [⟨"", name, Shape.tuple operands⟩, ⟨name, Shape.tuple operands, ""⟩]
  | ambiguousOperator (name : String) (operands : List Shape) (candidates : List String) :
      Names (.ambiguousOperator name operands candidates) (name ++ Shape.tuple operands)
        [⟨"", name, Shape.tuple operands⟩]
  | unsupportedOperation (s : Signature) (hook pass : String) :
      Names (.unsupportedOperation s.text hook pass) s.text [s.nameMark]
  | wrongOperand {s : Signature} {before after : List Shape} {expected given : Shape} :
      s.operands = before ++ expected :: after → given ≠ expected →
      Names (.typeMismatch
          ("operand #" ++ toString (before.length + 1) ++ " of " ++ quoted s.text) expected given)
        s.text [s.operandMark before expected after]
  | wrongResult {s : Signature} {given : Shape} (hook : String) : given ≠ s.result →
      Names (.typeMismatch ("the " ++ quoted hook ++ " hook of " ++ quoted s.text ++
          " produced a " ++ quoted given.name) s.result given)
        s.text [s.resultMark]
  | wrongValue (name role : String) {expected given : Shape} : given ≠ expected →
      Names (.typeMismatch (role ++ " for " ++ quoted name) expected given)
        (name ++ ": " ++ expected.name) [⟨name ++ ": ", expected.name, ""⟩]
  | unsupportedTarget (s : Signature) (target : String) :
      Names (.unsupportedTarget s.text target) s.text [s.nameMark]
  | unknownTarget (name : String) (available : List String) :
      Names (.unknownTarget name available) name [.whole name]
  | invalidLiteral {s : Shape} {given : Nat} : given ≠ s.size →
      Names (.invalidLiteral s s.size given) (s.name ++ "[" ++ toString given ++ "]")
        [.whole (s.name ++ "[" ++ toString given ++ "]")]
  | expectedLeaf (text role : String) : Names (.expectedLeaf role) text [.whole text]

namespace Cause.Names

variable {c : Cause} {source : String} {marks : List Mark}

theorem length_labels (h : c.Names source marks) : marks.length = c.labels.length := by
  cases h <;> rfl

theorem ne_nil (h : c.Names source marks) : marks ≠ [] := by
  cases h <;> exact List.cons_ne_nil _ _

/-- The parts are parts of the text. -/
theorem text_eq (h : c.Names source marks) : ∀ m ∈ marks, m.text = source := by
  cases h with
  | duplicateDefinition | unknownTarget | invalidLiteral | expectedLeaf => simp
  | unknownOperator | ambiguousOperator => simp [Mark.text]
  | unsupportedOperation s | unsupportedTarget s => simp [s.text_nameMark]
  | wrongOperand operands => simp [Signature.text_operandMark operands]
  | @wrongResult s => simp [s.text_resultMark]
  | wrongValue => simp [Mark.text]

end Cause.Names

/-! ## Errors that point at what they name -/

/-- There is a span for each label, all labels are shown, and every span lies on character
boundaries of the text and has the part of it that its label speaks of. -/
structure Error.Pointed (e : Error) : Prop where
  nonempty : e.spans ≠ []
  counts : e.spans.length = e.cause.labels.length
  shown : e.labels = e.cause.labels.map Text.uncoloured
  covers : ∃ marks, e.cause.Names e.source marks ∧
    List.Forall₂ (fun span (m : Mark) => m.text = e.source ∧ span.start = m.before.utf8ByteSize ∧
      span.Covers e.source m.part) e.spans marks

namespace Error

theorem Pointed.of_marks {e : Error} {marks : List Mark} (names : e.cause.Names e.source marks)
    (spans : e.spans = marks.map Mark.span) : e.Pointed where
  nonempty := by
    rw [spans, Ne, List.map_eq_nil_iff]
    exact names.ne_nil
  counts := by rw [spans, List.length_map, names.length_labels]
  shown := by
    -- a label is shown together with its span, so none is dropped
    have count : e.cause.labels.length = e.spans.length := by
      rw [spans, List.length_map, names.length_labels]
    calc e.labels = ((e.cause.labels.zip e.spans).map Prod.fst).map Text.uncoloured := by
          simp [labels]
      _ = e.cause.labels.map Text.uncoloured := by rw [List.map_fst_zip (Nat.le_of_eq count)]
  covers := by
    refine ⟨marks, names, ?_⟩
    rw [spans, List.forall₂_map_left_iff, List.forall₂_same]
    intro m hm
    refine ⟨names.text_eq m hm, rfl, ?_⟩
    have covers := m.covers
    rwa [names.text_eq m hm] at covers

theorem pointed_alreadyRegistered (s : Signature) : (alreadyRegistered s).Pointed :=
  .of_marks (.duplicateDefinition s) rfl

theorem pointed_noOperator (name : String) (operands : List Shape) (suggestions : List String) :
    (noOperator name operands suggestions).Pointed := by
  refine .of_marks (.unknownOperator name operands suggestions) ?_
  simp [noOperator, Placement.of, Mark.span, Span.place]

theorem pointed_severalResults (name : String) (operands : List Shape)
    (candidates : List String) : (severalResults name operands candidates).Pointed :=
  .of_marks (.ambiguousOperator name operands candidates) rfl

theorem pointed_missingHook (s : Signature) (hook pass : String) :
    (missingHook s hook pass).Pointed :=
  .of_marks (.unsupportedOperation s hook pass) rfl

theorem pointed_wrongOperand {s : Signature} {before after : List Shape} {expected given : Shape}
    (operands : s.operands = before ++ expected :: after) (ne : given ≠ expected) :
    (wrongOperand s before.length given).Pointed := by
  have expects : s.operands.getD before.length given = expected := by simp [operands]
  have names : (wrongOperand s before.length given).cause.Names
      (wrongOperand s before.length given).source [s.operandMark before expected after] := by
    rw [wrongOperand, expects]
    exact .wrongOperand operands ne
  have opening : "(".utf8ByteSize = 1 := by decide
  refine .of_marks names ?_
  simp [wrongOperand, Placement.ofSignature, Placement.of, operands,
    Placement.getElem?_operandSpans, Signature.operandMark, Mark.span, Span.place, opening]

theorem pointed_wrongResult {s : Signature} {given : Shape} (hook : String)
    (ne : given ≠ s.result) : (wrongResult s hook given).Pointed :=
  .of_marks (.wrongResult hook ne) rfl

theorem pointed_wrongValue (name role : String) {expected given : Shape} (ne : given ≠ expected) :
    (wrongValue name expected given role).Pointed := by
  have separator : ": ".utf8ByteSize = 2 := by decide
  refine .of_marks (.wrongValue name role ne) ?_
  simp [wrongValue, Mark.span, Span.place, separator]

theorem pointed_missingRenderer (s : Signature) (target : String) :
    (missingRenderer s target).Pointed :=
  .of_marks (.unsupportedTarget s target) rfl

theorem pointed_noTarget (name : String) (available : List String) :
    (noTarget name available).Pointed :=
  .of_marks (.unknownTarget name available) rfl

theorem pointed_wrongCount {s : Shape} {given : Nat} (ne : given ≠ s.size) :
    (wrongCount s given).Pointed :=
  .of_marks (.invalidLiteral ne) rfl

theorem pointed_notALeaf (text role : String) : (notALeaf text role).Pointed :=
  .of_marks (.expectedLeaf text role) rfl

end Error

end SymbolicLinalg
