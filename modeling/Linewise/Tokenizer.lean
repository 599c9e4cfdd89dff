import Linewise.Segment
import Linewise.Token

/-! Tokenizers, as machines that take one line at a time, and the two that do without a grammar. The kind
in which a line ends is handed on by the caller; a tokenizer may keep a context besides, which the caller
can read and set. -/
namespace Linewise

structure Tokenizer (σ : Type) where
  analyze : Segment → Kind → Offset → σ → Except Fault (Row × σ)
  context : σ → Option Context
  setContext : Option Context → σ → σ

namespace Tokenizer

variable {σ : Type} (t : Tokenizer σ)

def tokenizeSegments : List Segment → Kind → σ → Except Fault (List Token × σ)
  | [], _, s => .ok ([], s)
  | segment :: rest, kind, s => do
    let (row, s) ← t.analyze segment kind (.ofNat segment.start) s
    let (tokens, s) ← tokenizeSegments rest row.continuation s
    return (row.tokens ++ tokens, s)

/-- The tokens of a whole text, from a null kind and no context. -/
def tokenize (text : String) (s : σ) : Except Fault (List Token × σ) :=
  t.tokenizeSegments (Segment.lines text) .null (t.setContext none s)

end Tokenizer

/-- The tokenizer for text without a grammar: each line that is not empty is one token. -/
structure Plain where
  row : Row
  deriving DecidableEq, Repr

namespace Plain

def new : Plain := ⟨.empty⟩

def analyze (segment : Segment) (offset : Offset) : Except Fault Plain := do
  let stop ← offset.advance segment.size
  let tokens := if segment.isEmpty then [] else [⟨.text, ⟨offset, stop⟩, none⟩]
  return ⟨⟨tokens, .null, offset, stop⟩⟩

end Plain

/-- A token of a table. Its ends count from the start of the line or from that of the document. -/
structure Mark where
  start : Offset
  stop : Offset
  kind : Kind
  nesting : Option UInt16
  fromLine : Bool
  deriving DecidableEq, Repr

def Mark.token (m : Mark) (offset : Offset) : Token :=
  let origin := if m.fromLine then offset else 0
  ⟨m.kind, ⟨origin + m.start, origin + m.stop⟩, m.nesting⟩

/-- Each line is looked up, and its tokens are not held to any order or bounds. Lines that are not in the
table get the `fallback`. -/
structure Table where
  lines : List (String × List Mark)
  fallback : List Mark
  deriving DecidableEq, Repr

namespace Table

def marks (t : Table) (text : String) : List Mark := (t.lines.lookup text).getD t.fallback

def analyze (t : Table) (segment : Segment) (initial : Kind) (offset : Offset) : Row :=
  let tokens := (t.marks segment.text).map fun m => m.token offset
  Row.finish ⟨tokens, .null, offset, offset⟩ (offset + .ofNat segment.size) initial

end Table
end Linewise
