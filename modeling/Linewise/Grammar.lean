import Linewise.Segment
import Linewise.Token

/-! What a grammar does with one line: a program that emits tokens, declares the line closed and
writes the context, and that can look at what has become of the line so far before it goes on. -/
namespace Linewise

structure Emitter where
  row : Row
  segmentSize : Nat
  languageIndex : UInt32
  context : Option Context
  nullEnded : Bool
  deriving DecidableEq, Repr

namespace Emitter

def lineStart (e : Emitter) : Offset := e.row.start

def emitted (e : Emitter) : List Token := e.row.tokens

/-- Appends a token. The line is no longer closed by an earlier null end. -/
def emit (e : Emitter) (t : Token) : Emitter := { e with row := e.row.push t, nullEnded := false }

def endNull (e : Emitter) : Emitter := { e with nullEnded := true }

def setContext (e : Emitter) (context : Option Context) : Emitter := { e with context }

/-- The finished row. A null end wins over the kind of the last token, and that over `initial`. -/
def close (e : Emitter) (stop : Offset) (initial : Kind) : Row :=
  if e.nullEnded then e.row.finishWith stop .null else e.row.finish stop initial

end Emitter

/-- What a grammar records of an analysis for whoever watches it. -/
inductive Observation where
  | replaced (previous : Option Context)
  | saw (emitter : Emitter) (segment : Segment) (initial : Kind) (offset : Offset)
  deriving DecidableEq, Repr

/-- Positions of tokens count from the start of the line. -/
inductive Emission where
  | done
  | token (start stop : Nat) (kind : Kind) (nesting : Option UInt16) (next : Emission)
  | endNull (next : Emission)
  | setContext (context : Option Context) (next : Emission)
  | look (next : Emitter → Emission)
  | note (observation : Observation) (next : Emission)
  | fail (message : String)

namespace Emission

/-- The analysis after the emission, and what was recorded on the way. -/
def run : Emission → Emitter → Except Fault (Emitter × List Observation)
  | .done, e => .ok (e, [])
  | .token start stop kind nesting next, e => do
    let span ← Span.place e.lineStart start stop
    let token ← Token.ofSpan kind span nesting
    next.run (e.emit token)
  | .endNull next, e => next.run e.endNull
  | .setContext context next, e => next.run (e.setContext context)
  | .look next, e => (next e).run e
  | .note observation next, e => do
    let (e, rest) ← next.run e
    return (e, observation :: rest)
  | .fail message, _ => .error (.raised message)

def span (pos size : Nat) (kind : Kind) (next : Emission) : Emission :=
  .token pos (pos + size) kind none next

def spanUnlessEmpty (pos size : Nat) (kind : Kind) (next : Emission) : Emission :=
  if size = 0 then next else span pos size kind next

end Emission

/-- A grammar that listens is told when the context of a tokenizer that uses it is set from outside. -/
structure Grammar where
  label : String
  emit : Segment → Kind → Offset → Emission
  listens : Bool

def Grammar.silent (g : Grammar) : Grammar := { g with listens := false }

end Linewise
