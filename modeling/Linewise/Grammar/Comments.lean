import Linewise.Grammar

/-! Block comments that reach over lines. What opens a comment also counts towards what closes it, so
a slash, a star and a slash are a whole comment. -/
namespace Linewise.Grammar

namespace Comments

def opening : List Char := ['/', '*']

def closing : List Char := ['*', '/']

/-- Emits `s`, which begins at `pos`, from inside or outside of a comment. A line that ends outside
ends in nothing. -/
def scan (inside : Bool) (pos : Nat) (s : List Char) : Emission :=
  if s.isEmpty then
    if inside then .done else .endNull .done
  else if inside then
    match _h : Text.breakOn? closing s with
    | some (before, found) =>
      let size := Text.size before + 2
      .span pos size .commentBlock (scan false (pos + size) (found.drop 2))
    | none => .span pos (Text.size s) .commentBlock .done
  else
    match _h : Text.breakOn? opening s with
    | some (before, found) =>
      .spanUnlessEmpty pos (Text.size before) .text (scan true (pos + Text.size before) found)
    | none => .span pos (Text.size s) .text (.endNull .done)
termination_by 2 * s.length + (!inside).toNat
decreasing_by
  · have := Text.length_add_of_breakOn? _h
    simp_all [closing]
    omega
  · have := Text.length_add_of_breakOn? _h
    simp_all [opening]
    omega

def emit (segment : Segment) (initial : Kind) : Emission :=
  scan (initial == .commentBlock) 0 segment.text.toList

end Comments

def comments (label : String) : Grammar :=
  ⟨label, fun segment initial _ => Comments.emit segment initial, true⟩

end Linewise.Grammar
