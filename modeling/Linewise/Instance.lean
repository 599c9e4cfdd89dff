import Linewise.Signal
import Linewise.Tokenizer

/-! The tokenizer that leaves the lines to a grammar and keeps the context for it, and all tokenizers as
one machine that keeps what it signals. -/
namespace Linewise

/-- Without a grammar each line is one token of the kind it starts in. -/
structure Engine where
  grammar : Option Grammar
  languageIndex : UInt32
  context : Option Context
  row : Row

namespace Engine

def new (grammar : Option Grammar) (languageIndex : UInt32) : Engine :=
  ⟨grammar, languageIndex, none, .empty⟩

def emitter (e : Engine) (segment : Segment) (offset : Offset) : Emitter :=
  ⟨.openAt offset, segment.size, e.languageIndex, e.context, false⟩

def analyze (e : Engine) (segment : Segment) (initial : Kind) (offset : Offset) :
    Except Fault (Engine × List Signal) := do
  let stop ← offset.advance segment.size
  let started := Signal.logged (.analysis e.languageIndex segment.size)
  match e.grammar with
  | none =>
    let tokens := if segment.isEmpty then [] else [⟨initial, ⟨offset, stop⟩, none⟩]
    return ({ e with row := ⟨tokens, initial, offset, stop⟩ }, [started])
  | some grammar =>
    let (out, notes) ← (grammar.emit segment initial offset).run (e.emitter segment offset)
    return ({ e with context := out.context, row := out.close stop initial },
      started :: .entered :: notes.map .observed)

def setContext (e : Engine) (context : Option Context) : Engine × List Signal :=
  ({ e with context },
    match e.grammar with
    | some grammar => if grammar.listens then [.contextSet grammar.label context] else []
    | none => [])

/-- Takes the context away without telling the grammar. -/
def takeContext (e : Engine) : Option Context × Engine := (e.context, { e with context := none })

end Engine

inductive Instance where
  | plain (tokenizer : Plain)
  | engine (tokenizer : Engine)
  | table (table : Table) (row : Row)

namespace Instance

def name : Instance → String
  | .plain _ => "Plain"
  | .engine _ => "Dispatch"
  | .table _ _ => "Raw"

def languageIndex : Instance → UInt32
  | .engine e => e.languageIndex
  | .plain _ | .table _ _ => 0

def context : Instance → Option Context
  | .engine e => e.context
  | .plain _ | .table _ _ => none

def row : Instance → Row
  | .plain p => p.row
  | .engine e => e.row
  | .table _ row => row

def analyze (segment : Segment) (initial : Kind) (offset : Offset) :
    Instance → Except Fault (Instance × List Signal)
  | .plain _ => do return (.plain (← Plain.analyze segment offset), [])
  | .engine e => do
    let (e, signals) ← e.analyze segment initial offset
    return (.engine e, signals)
  | .table t _ => .ok (.table t (t.analyze segment initial offset), [.entered])

def setContext (context : Option Context) : Instance → Instance × List Signal
  | .engine e =>
    let (e, signals) := e.setContext context
    (.engine e, signals)
  | other => (other, [])

def takeContext : Instance → Option Context × Instance
  | .engine e =>
    let (context, e) := e.takeContext
    (context, .engine e)
  | other => (none, other)

end Instance

structure Traced where
  current : Instance
  signals : List Signal

namespace Traced

def start (i : Instance) : Traced := ⟨i, []⟩

def tokenizer : Tokenizer Traced where
  analyze segment initial offset t := do
    let (i, signals) ← t.current.analyze segment initial offset
    return (i.row, ⟨i, t.signals ++ signals⟩)
  context t := t.current.context
  setContext context t :=
    let (i, signals) := t.current.setContext context
    ⟨i, t.signals ++ signals⟩

end Traced
end Linewise
