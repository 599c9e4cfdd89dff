import Linewise.Tokenizer

/-! The cached analysis of a document: how it is made from scratch, and how it is brought up to date after
a change of one line. Lines are analyzed anew from there until one comes out in the shape it had; those
after it are only moved. -/
namespace Linewise

structure Line where
  tokens : List Token
  continuation : Kind
  context : Option Context
  start : Offset
  deriving DecidableEq, Repr

namespace Line

def ofRow (row : Row) (context : Option Context) (start : Offset) : Line :=
  ⟨row.tokens, row.continuation, context, start⟩

/-- The tokens counted from the start of the line, modulo `2 ^ 64`. -/
def relativeTokens (l : Line) : List Token := l.tokens.map fun t => t.relativeTo l.start

def sameShape (a b : Line) : Bool :=
  a.continuation == b.continuation && a.context == b.context &&
    a.relativeTokens == b.relativeTokens

/-- The line moved to `start`. A line that is there already is left alone, whatever its tokens. -/
def rebase (l : Line) (start : Offset) : Except Fault Line :=
  if start = l.start then .ok l
  else do return { l with tokens := ← l.relativeTokens.mapM fun t => t.place start, start }

def tokensIn (l : Line) (range : Span) : List Token := l.tokens.filter fun t => t.span.overlaps range

theorem sameShape_iff {a b : Line} :
    a.sameShape b = true ↔
      a.continuation = b.continuation ∧ a.context = b.context ∧
        a.relativeTokens = b.relativeTokens := by
  simp [sameShape, and_assoc]

@[simp] theorem sameShape_refl (a : Line) : a.sameShape a = true := sameShape_iff.2 ⟨rfl, rfl, rfl⟩

@[simp] theorem rebase_self (l : Line) : l.rebase l.start = .ok l := if_pos rfl

end Line

/-- The lines, and the width in bytes of the ending of each. -/
structure Document where
  lines : List Line
  endings : List Nat
  deriving DecidableEq, Repr

/-- Where each of the texts starts, the first at `offset`. A missing width counts as one byte. The end
of the last line has to be an offset too. -/
def lineStarts (offset : Offset) : List String → List Nat → Except Fault (List Offset)
  | [], _ => .ok []
  | text :: texts, endings => do
    let next ← offset.advance (Text.size text.toList + endings.headD 1)
    return offset :: (← lineStarts next texts endings.tail)

namespace Tokenizer

variable {σ : Type} (t : Tokenizer σ)

def line (text : String) (start : Offset) (kind : Kind) (s : σ) : Except Fault (Line × σ) := do
  let (row, s) ← t.analyze (.whole text) kind start s
  return (.ofRow row (t.context s) start, s)

def lines : List (String × Offset) → Kind → σ → Except Fault (List Line × σ)
  | [], _, s => .ok ([], s)
  | (text, start) :: rest, kind, s => do
    let (line, s) ← t.line text start kind s
    let (lines, s) ← lines rest line.continuation s
    return (line :: lines, s)

end Tokenizer

namespace Document

variable {σ : Type} (t : Tokenizer σ)

def empty : Document := ⟨[], []⟩

/-- The texts as lines with endings of those widths, from a null kind and no context. -/
def build (texts : List String) (endings : List Nat) (s : σ) : Except Fault (Document × σ) := do
  let starts ← lineStarts 0 texts endings
  let (lines, s) ← t.lines (texts.zip starts) .null (t.setContext none s)
  return (⟨lines, endings⟩, s)

def ofText (text : String) (s : σ) : Except Fault (Document × σ) :=
  let segments := Segment.lines text
  build t (segments.map Segment.text) (Segment.gaps (Text.size text.toList) segments) s

/-- The texts as lines with endings of one byte. -/
def ofLines (texts : List String) (s : σ) : Except Fault (Document × σ) :=
  build t texts (texts.map fun _ => 1) s

def tokensInRange (d : Document) (index : Nat) (range : Span) : List Token :=
  match d.lines[index]? with
  | some line => line.tokensIn range
  | none => []

end Document

namespace Document

/-- A line that an update may reach: its text, where it starts now, and what there is of it. -/
structure Slot where
  text : String
  start : Offset
  cached : Line
  deriving DecidableEq, Repr

def slots (texts : List String) (starts : List Offset) (lines : List Line) : List Slot :=
  List.zipWith (fun (text, start) cached => ⟨text, start, cached⟩) (texts.zip starts) lines

def continuationBefore (d : Document) : Nat → Kind × Option Context
  | 0 => (.null, none)
  | index + 1 =>
    match d.lines[index]? with
    | some line => (line.continuation, line.context)
    | none => (.null, none)

variable {σ : Type} (t : Tokenizer σ)

/-- The lines of the slots, analyzed anew up to the first that keeps its shape. -/
def settle : List Slot → Kind → σ → Except Fault (List Line × σ)
  | [], _, s => .ok ([], s)
  | slot :: rest, kind, s => do
    let (line, s) ← t.line slot.text slot.start kind s
    if slot.cached.sameShape line then
      return (line :: (← rest.mapM fun slot => slot.cached.rebase slot.start), s)
    else
      let (lines, s) ← settle rest line.continuation s
      return (line :: lines, s)

/-- The document of `texts`, of which the line at `index` has changed. There is nothing to do for an
index past the end; otherwise a new number of lines means a new document with endings of one byte. -/
def update (d : Document) (texts : List String) (index : Nat) (s : σ) :
    Except Fault (Document × σ) :=
  if texts.length ≤ index then .ok (d, s)
  else if d.lines.length ≠ texts.length then ofLines t texts s
  else do
    let starts ← lineStarts 0 texts d.endings
    let (kind, context) := d.continuationBefore index
    let (settled, s) ←
      settle t ((slots texts starts d.lines).drop index) kind (t.setContext context s)
    return ({ d with lines := d.lines.take index ++ settled }, s)

end Document
end Linewise
