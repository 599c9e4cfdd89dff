import Linewise.Document
import Linewise.Shelf

/-! The things at work, each under a name, and the ways in which an operation on them can fail to
answer. -/
namespace Linewise

structure Workspace where
  tokenizers : Std.TreeMap String Instance
  documents : Std.TreeMap String Document
  shelf : Shelf

/-- A fault, or a name under which there is nothing of the kind asked for. -/
inductive Halt where
  | fault (fault : Fault)
  | missing (name : String)
  deriving DecidableEq, Repr

/-- An answer, what was signalled, and the things as they are afterwards. -/
structure Step (α : Type) where
  reply : α
  signals : List Signal
  workspace : Workspace

namespace Workspace

variable {α : Type}

def initial : Workspace := ⟨∅, ∅, .initial⟩

def orMissing (name : String) : Option α → Except Halt α
  | some a => .ok a
  | none => .error (.missing name)

def tokenizer (w : Workspace) (name : String) : Except Halt Instance :=
  orMissing name w.tokenizers[name]?

def document (w : Workspace) (name : String) : Except Halt Document :=
  orMissing name w.documents[name]?

def catalog (w : Workspace) (name : String) : Except Halt Catalog :=
  orMissing name w.shelf.catalogs[name]?

def recipe (w : Workspace) (draft : Draft) : Except Halt Recipe :=
  (w.shelf.recipe draft).mapError .missing

def handle (w : Workspace) (name : String) : Except Halt Nat :=
  orMissing name (w.shelf.handle? name)

def registry (w : Workspace) (name : String) : Except Halt Registry := do
  orMissing name (w.shelf.registry? (← w.handle name))

def putTokenizer (w : Workspace) (name : String) (i : Instance) : Workspace :=
  { w with tokenizers := w.tokenizers.insert name i }

def putDocument (w : Workspace) (name : String) (d : Document) : Workspace :=
  { w with documents := w.documents.insert name d }

def putShelf (w : Workspace) (s : Shelf) : Workspace := { w with shelf := s }

def answer (w : Workspace) (a : α) : Step α := ⟨a, [], w⟩

def drive (w : Workspace) (name : String) (operation : Traced → Except Fault (α × Traced)) :
    Except Halt (Step α) := do
  let i ← w.tokenizer name
  match operation (.start i) with
  | .ok (a, t) => return ⟨a, t.signals, w.putTokenizer name t.current⟩
  | .error fault => .error (.fault fault)

end Workspace
end Linewise
