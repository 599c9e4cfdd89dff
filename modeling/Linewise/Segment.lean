import Linewise.Offset
import Linewise.TextLine

/-! Views of a run of bytes in a buffer, the way in which a line of a text is handed on. -/
namespace Linewise

structure Segment where
  buffer : String
  start : Nat
  stop : Nat
  deriving DecidableEq, Repr

namespace Segment

def whole (text : String) : Segment := ⟨text, 0, Text.size text.toList⟩

/-- The view from `a` to `b`, if both are boundaries of the buffer and in order. -/
def ofRange? (buffer : String) (a b : Nat) : Option Segment :=
  (Text.slice? buffer a b).map fun _ => ⟨buffer, a, b⟩

def text (s : Segment) : String := (Text.slice? s.buffer s.start s.stop).getD ""

def size (s : Segment) : Nat := s.stop - s.start

def isEmpty (s : Segment) : Bool := s.start == s.stop

/-- The view from byte `a` to byte `b` of this one. A `b` past the end is refused before the positions
in the buffer are computed, so an `a` may still leave the range of offsets. -/
def slice (s : Segment) (a b : Nat) : Except Fault (Option Segment) :=
  if s.size < b then .ok none
  else do
    let start ← Offset.check (s.start + a)
    let stop ← Offset.check (s.start + b)
    return ofRange? s.buffer start.toNat stop.toNat

/-- The answers of successive slices, each taken of the last view there was. A fault ends them. -/
def slices (s : Segment) : List (Nat × Nat) → List (Except Fault (Option Segment))
  | [] => []
  | (a, b) :: rest =>
    match s.slice a b with
    | .error fault => [.error fault]
    | .ok none => .ok none :: slices s rest
    | .ok (some inner) => .ok (some inner) :: slices inner rest

def place (buffer : String) (start : Nat) : List TextLine → List Segment
  | [] => []
  | l :: ls =>
    ⟨buffer, start, start + Text.size l.content⟩ :: place buffer (start + Text.size l.text) ls

/-- A view of each line of `text`, without its ending. -/
def lines (text : String) : List Segment := place text 0 (TextLine.split text.toList)

/-- The bytes between each of the views and the next one, or the end of a buffer of `size` bytes. -/
def gaps (size : Nat) : List Segment → List Nat
  | [] => []
  | [s] => [size - s.stop]
  | s :: t :: rest => (t.start - s.stop) :: gaps size (t :: rest)

@[simp] theorem length_place (buffer : String) (start : Nat) (ls : List TextLine) :
    (place buffer start ls).length = ls.length := by
  induction ls generalizing start with
  | nil => rfl
  | cons l ls ih => simp [place, ih]

end Segment
end Linewise
