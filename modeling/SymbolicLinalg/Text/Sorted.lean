/-!
# Sorted — texts in the order of their code points

Lists of names and signatures are shown in increasing order.  Sorting is stable and keeps every
element, also one that occurs twice.
-/

namespace SymbolicLinalg

namespace Text

/-- Whether a text does not come after another. -/
def notAfter (a b : String) : Bool :=
  !decide (b < a)

def sorted (texts : List String) : List String :=
  texts.mergeSort notAfter

/-- Sorts by the text of each element. -/
def sortedBy {α : Type} (text : α → String) (elements : List α) : List α :=
  elements.mergeSort fun a b => notAfter (text a) (text b)

theorem sorted_perm (texts : List String) : (sorted texts).Perm texts :=
  List.mergeSort_perm texts notAfter

end Text

end SymbolicLinalg
