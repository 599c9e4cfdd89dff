import Linewise.Grammar

/-! The pieces between single spaces, empty ones included, with the spaces as tokens of their own. -/
namespace Linewise.Grammar

namespace Spaces

def pieces : List Char → List (List Char)
  | [] => [[]]
  | c :: s =>
    match pieces s with
    | [] => [[c]]
    | piece :: rest => if c = ' ' then [] :: piece :: rest else (c :: piece) :: rest

/-- Emits the pieces, the first of which begins at `pos`, each but the very first after its space. -/
def emitPieces (pos : Nat) : List (List Char) → Emission
  | [] => .done
  | piece :: rest =>
    let onward :=
      Emission.span pos (Text.size piece) .text (emitPieces (pos + Text.size piece + 1) rest)
    if pos = 0 then onward else .span (pos - 1) 1 .whitespace onward

def emit (segment : Segment) : Emission := emitPieces 0 (pieces segment.text.toList)

end Spaces

def spaces (label : String) : Grammar := ⟨label, fun segment _ _ => Spaces.emit segment, true⟩

end Linewise.Grammar
