/-!
# Plain — texts without colour, and their first lines

A terminal takes an escape character, an opening bracket, digits and semicolons, and the letter `m`
for a change of colour.  Reports are plain texts, so such changes are left out of them; any other
control character is kept.
-/

namespace SymbolicLinalg

namespace Text

/-! ## Colours -/

def isColourParameter (c : Char) : Bool :=
  c.isDigit || c == ';'

/-- What follows the parameters of a colour escape and its final letter. -/
def afterParameters? : List Char → Option (List Char)
  | [] => none
  | c :: rest =>
      if c = 'm' then some rest
      else if isColourParameter c then afterParameters? rest
      else none

/-- What follows a colour escape at the front of a text. -/
def afterColour? : List Char → Option (List Char)
  | '\x1b' :: '[' :: rest => afterParameters? rest
  | _ => none

theorem length_lt_of_afterParameters? {cs rest : List Char} (h : afterParameters? cs = some rest) :
    rest.length < cs.length := by
  induction cs with
  | nil => exact absurd h (by simp [afterParameters?])
  | cons c cs ih =>
      unfold afterParameters? at h
      split at h
      · cases h
        exact Nat.lt_succ_self _
      · split at h
        · exact Nat.lt_succ_of_lt (ih h)
        · exact absurd h (by simp)

theorem length_lt_of_afterColour? {cs rest : List Char} (h : afterColour? cs = some rest) :
    rest.length < cs.length := by
  unfold afterColour? at h
  split at h
  · next tail => exact Nat.lt_succ_of_lt (Nat.lt_succ_of_lt (length_lt_of_afterParameters? h))
  · exact absurd h (by simp)

/-- The characters that do not belong to a colour escape. -/
def withoutColours (cs : List Char) : List Char :=
  match h : afterColour? cs with
  | some rest =>
      have := length_lt_of_afterColour? h
      withoutColours rest
  | none =>
      match cs with
      | [] => []
      | c :: rest => c :: withoutColours rest
termination_by cs.length

/-- The text with every colour escape left out. -/
def uncoloured (text : String) : String :=
  String.ofList (withoutColours text.toList)

/-! ## Lines -/

/-- The characters in front of the first end of a line, which is a line feed, or a carriage return
and a line feed. -/
def beforeLineEnd : List Char → List Char
  | [] => []
  | '\r' :: '\n' :: _ => []
  | c :: rest => if c = '\n' then [] else c :: beforeLineEnd rest

/-- The text in front of its first end of a line, all of it where no line ends. -/
def firstLine (text : String) : String :=
  String.ofList (beforeLineEnd text.toList)

end Text

end SymbolicLinalg
