import Linewise.Grammar

/-! Words and the blanks between them: the longest runs of ASCII white space and of anything else. -/
namespace Linewise.Grammar

namespace Words

def isBlank (c : Char) : Bool :=
  c == ' ' || c == '\t' || c == '\n' || c == '\x0c' || c == '\r'

/-- The runs in order, each with whether it is blank and its size in bytes. -/
def runs : List Char → List (Bool × Nat)
  | [] => []
  | c :: s =>
    match runs s with
    | [] => [(isBlank c, c.utf8Size)]
    | (blank, size) :: rest =>
      if isBlank c = blank then (blank, c.utf8Size + size) :: rest
      else (isBlank c, c.utf8Size) :: (blank, size) :: rest

def emitRuns (pos : Nat) : List (Bool × Nat) → Emission
  | [] => .done
  | (blank, size) :: rest =>
    .span pos size (if blank then .whitespace else .text) (emitRuns (pos + size) rest)

def emit (segment : Segment) : Emission := emitRuns 0 (runs segment.text.toList)

end Words

def words (label : String) : Grammar := ⟨label, fun segment _ _ => Words.emit segment, true⟩

end Linewise.Grammar
