import Linewise.Kind
import Linewise.Offset
import Linewise.Text

/-! Tokens with absolute positions, the checks on a list of them, and the analysis of one line: its tokens
in order and the kind in which the line ends. -/
namespace Linewise

structure Token where
  kind : Kind
  span : Span
  nesting : Option UInt16
  deriving DecidableEq, Repr

namespace Token

def ofSpan (kind : Kind) (span : Span) (nesting : Option UInt16) : Except Fault Token :=
  if span.Ordered then .ok ⟨kind, span, nesting⟩ else .error .invertedSpan

theorem ofSpan_eq_ok_iff {kind : Kind} {span : Span} {nesting : Option UInt16} {t : Token} :
    ofSpan kind span nesting = .ok t ↔ span.Ordered ∧ t = ⟨kind, span, nesting⟩ := by
  unfold ofSpan
  split <;> simp [*, eq_comm]

def text (t : Token) (document : String) : Except Fault String :=
  match Text.slice? document t.span.start.toNat t.span.stop.toNat with
  | some covered => .ok covered
  | none => .error .badSlice

/-- The token with its span counted from `origin`, modulo `2 ^ 64`. -/
def relativeTo (t : Token) (origin : Offset) : Token := { t with span := t.span.relativeTo origin }

def place (t : Token) (origin : Offset) : Except Fault Token := do
  return { t with span := ← Span.place origin t.span.start.toNat t.span.stop.toNat }

end Token

/-- Whether the tokens lie within `bounds`, each ordered and none before the end of the one before. -/
def validateTokens (bounds : Span) : List Token → Bool
  | [] => true
  | t :: ts =>
    decide t.span.Ordered && decide (t.span.stop ≤ bounds.stop) &&
      decide (bounds.start ≤ t.span.start) && validateTokens ⟨t.span.stop, bounds.stop⟩ ts

/-- Whether the tokens cover `bounds` without gap or overlap. Empty tokens can stand anywhere. -/
def isPartition (bounds : Span) : List Token → Bool
  | [] => bounds.start == bounds.stop
  | t :: ts =>
    t.span.start == bounds.start && decide t.span.Ordered &&
      isPartition ⟨t.span.stop, bounds.stop⟩ ts

/-- The line covers `start` to `stop`, and `continuation` is where the next line begins. -/
structure Row where
  tokens : List Token
  continuation : Kind
  start : Offset
  stop : Offset
  deriving DecidableEq, Repr

namespace Row

def openAt (offset : Offset) : Row := ⟨[], .null, offset, offset⟩

def empty : Row := openAt 0

def push (r : Row) (t : Token) : Row := { r with tokens := r.tokens ++ [t] }

def finishWith (r : Row) (stop : Offset) (continuation : Kind) : Row :=
  { r with stop, continuation }

/-- Ends the line in the kind of its last token, or in `initial` if it has none. -/
def finish (r : Row) (stop : Offset) (initial : Kind) : Row :=
  r.finishWith stop (r.tokens.getLast?.elim initial Token.kind)

/-- The empty token that marks the end of the line with its continuation. -/
def terminal (r : Row) : Token := ⟨r.continuation, ⟨r.stop, r.stop⟩, none⟩

def size (r : Row) : Nat := r.tokens.length

def isEmpty (r : Row) : Bool := r.tokens.isEmpty

def first? (r : Row) : Option Token := r.tokens.head?

def isPartitionOf (r : Row) (bounds : Span) : Bool := isPartition bounds r.tokens

@[simp] theorem tokens_push (r : Row) (t : Token) : (r.push t).tokens = r.tokens ++ [t] := rfl

@[simp] theorem start_push (r : Row) (t : Token) : (r.push t).start = r.start := rfl

@[simp] theorem tokens_finishWith (r : Row) (stop : Offset) (k : Kind) :
    (r.finishWith stop k).tokens = r.tokens := rfl

@[simp] theorem continuation_finishWith (r : Row) (stop : Offset) (k : Kind) :
    (r.finishWith stop k).continuation = k := rfl

@[simp] theorem tokens_finish (r : Row) (stop : Offset) (k : Kind) :
    (r.finish stop k).tokens = r.tokens := rfl

@[simp] theorem continuation_finish (r : Row) (stop : Offset) (k : Kind) :
    (r.finish stop k).continuation = r.tokens.getLast?.elim k Token.kind := rfl

end Row
end Linewise
