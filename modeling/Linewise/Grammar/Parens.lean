import Linewise.Grammar

/-! Every byte as a token with the depth of parentheses around it, a depth that reaches over lines. -/
namespace Linewise.Grammar

namespace Parens

/-- The depth after `c`. It stays in its range at both ends. -/
def descend (depth : UInt16) (c : Char) : UInt16 :=
  if c = '(' then if depth = 65535 then depth else depth + 1
  else if c = ')' then if depth = 0 then depth else depth - 1
  else depth

def emitBytes (depth : UInt16) (next : Emission) : Nat → Nat → Emission
  | _, 0 => next
  | pos, count + 1 =>
    .token pos (pos + 1) .delimiter (some depth) (emitBytes depth next (pos + 1) count)

def scan (depth : UInt16) (pos : Nat) : List Char → Emission
  | [] => .setContext (some (.nesting depth)) .done
  | c :: s =>
    let depth := descend depth c
    emitBytes depth (scan depth (pos + c.utf8Size) s) pos c.utf8Size

def depthOf : Option Context → UInt16
  | some (.nesting depth) => depth
  | _ => 0

def emit (segment : Segment) : Emission :=
  .look fun emitter => scan (depthOf emitter.context) 0 segment.text.toList

end Parens

def parens (label : String) : Grammar := ⟨label, fun segment _ _ => Parens.emit segment, true⟩

end Linewise.Grammar
