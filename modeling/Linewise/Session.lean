import Linewise.Inspect
import Linewise.Workspace

/-! Sessions: commands on tokenizers, documents and registries, carried out one after the other on the
things at work, up to the first that gets no answer. -/
namespace Linewise.Session

inductive Reply where
  | nothing
  | equipped (tokenizer : Instance)
  | made (tokenizer : Instance)
  | refused (error : BuildError)
  | analyzed (row : Row) (context : Option Context)
  | tokenized (tokens : List Token) (context : Option Context)
  | context (context : Option Context)
  | row (row : Row)
  | tokens (tokens : List Token)
  | lines (lines : List Line)
  | count (n : Nat)
  | truth (b : Bool)
  | names (names : List String)
  | catalog (names : List String) (contains : Bool)
  | registry (registry : Registry)
  | entry (entry : Entry)
  | text (text : String)

inductive AnalysisCommand where
  | equip (target : String) (tokenizer : Instance)
  | analyze (tokenizer : String) (segment : Segment) (initial : Kind) (offset : Offset)
  | tokenize (tokenizer text : String)
  | setContext (tokenizer : String) (context : Option Context)
  | getContext (tokenizer : String)
  | takeContext (tokenizer : String)
  | lastRow (tokenizer : String)
  | inspect (tokenizer : String)

namespace AnalysisCommand

def step (w : Workspace) : AnalysisCommand → Except Halt (Step Reply)
  | .equip target tokenizer => .ok ((w.putTokenizer target tokenizer).answer (.equipped tokenizer))
  | .analyze name segment initial offset =>
    w.drive name fun t => do
      let (row, t) ← Traced.tokenizer.analyze segment initial offset t
      return (.analyzed row t.current.context, t)
  | .tokenize name text =>
    w.drive name fun t => do
      let (tokens, t) ← Traced.tokenizer.tokenize text t
      return (.tokenized tokens t.current.context, t)
  | .setContext name context =>
    w.drive name fun t =>
      let t := Traced.tokenizer.setContext context t
      return (.context t.current.context, t)
  | .getContext name => return w.answer (.context (← w.tokenizer name).context)
  | .takeContext name => do
    let (context, i) := (← w.tokenizer name).takeContext
    return (w.putTokenizer name i).answer (.context context)
  | .lastRow name => return w.answer (.row (← w.tokenizer name).row)
  | .inspect name => return w.answer (.text (Inspect.tokenizer (← w.tokenizer name)))

end AnalysisCommand

inductive EditingCommand where
  | ofText (tokenizer text target : String)
  | ofLines (tokenizer : String) (texts : List String) (target : String)
  | empty (target : String)
  | update (document tokenizer : String) (texts : List String) (index : Nat)
  | copy (document target : String)
  | sameLines (left right : String)
  | inRange (document : String) (index : Nat) (range : Span)

namespace EditingCommand

def store (w : Workspace) (tokenizer target : String)
    (operation : Traced → Except Fault (Document × Traced)) : Except Halt (Step Reply) := do
  let step ← w.drive tokenizer operation
  return ⟨.lines step.reply.lines, step.signals, step.workspace.putDocument target step.reply⟩

def step (w : Workspace) : EditingCommand → Except Halt (Step Reply)
  | .ofText tokenizer text target => store w tokenizer target (Document.ofText Traced.tokenizer text)
  | .ofLines tokenizer texts target =>
    store w tokenizer target (Document.ofLines Traced.tokenizer texts)
  | .empty target => .ok ((w.putDocument target .empty).answer (.lines []))
  | .update document tokenizer texts index => do
    let d ← w.document document
    store w tokenizer document (d.update Traced.tokenizer texts index)
  | .copy document target => do
    let d ← w.document document
    return (w.putDocument target d).answer (.count d.lines.length)
  | .sameLines left right => do
    return w.answer (.truth ((← w.document left).lines == (← w.document right).lines))
  | .inRange document index range => do
    return w.answer (.tokens ((← w.document document).tokensInRange index range))

end EditingCommand

inductive CatalogSource where
  | catalog (name : String)
  | registry (name : String)
  deriving DecidableEq, Repr

/-- To reuse an entry is to register its recipe under a new key as well. -/
inductive RegisteringCommand where
  | define (target : String) (catalog : Catalog)
  | build (target : String) (catalog : Option String) (entries : List (String × Draft))
  | buildDefault (target : String)
  | current (target : String)
  | setCurrent (registry : String)
  | register (registry key : String) (draft : Draft)
  | reuse (registry key newKey : String)
  | unregister (registry key : String)
  | entry (registry key : String)
  | contains (registry key : String)
  | keys (registry : String)
  | resolve (registry key target : String)
  | tokenizer (registry key target : String)
  | create (draft : Draft) (catalog target : String)
  | load (typeName : String) (source : CatalogSource) (target : String)
  | catalog (typeName : String) (source : CatalogSource)
  | inspectRegistry (registry : String)
  | inspectCatalog (catalog : String)
  | inspectEntry (registry key : String)

def CatalogSource.find (w : Workspace) : CatalogSource → Except Halt Catalog
  | .catalog name => w.catalog name
  | .registry name => return (← w.registry name).catalog

namespace RegisteringCommand

def showRegistry (w : Workspace) (name : String) (id : Nat) : Except Halt Reply := do
  return .registry (← Workspace.orMissing name (w.shelf.registry? id))

def registerAt (w : Workspace) (name : String) (id : Nat) (e : Entry) :
    Except Halt (Step Reply) := do
  let (shelf, signals) := w.shelf.register id e
  let w := w.putShelf shelf
  return ⟨← showRegistry w name id, signals, w⟩

def built (w : Workspace) (target : String) (r : Registry) : Step Reply :=
  ⟨.registry r, [.logged (.registryBuilt r.size)], w.putShelf (w.shelf.add target r)⟩

def constructed (w : Workspace) (target : String) (o : Shelf.Outcome Construction) :
    Except Halt (Step Reply) :=
  let w := w.putShelf o.shelf
  match o.result with
  | .made i => .ok ⟨.made i, o.signals, w.putTokenizer target i⟩
  | .refused error => .ok ⟨.refused error, o.signals, w⟩
  | .raised message => .error (.fault (.raised message))

def resolved (w : Workspace) (target : String) (o : Shelf.Outcome Shelf.Resolution) :
    Except Halt (Step Reply) :=
  let w := w.putShelf o.shelf
  match o.result with
  | .absent => .ok ⟨.nothing, o.signals, w⟩
  | .made i => .ok ⟨.made i, o.signals, w.putTokenizer target i⟩
  | .failed error => .ok ⟨.refused error, o.signals, w⟩
  | .raised message => .error (.fault (.raised message))

def orNothing : Option Entry → Reply
  | some e => .entry e
  | none => .nothing

def step (w : Workspace) : RegisteringCommand → Except Halt (Step Reply)
  | .define target c => .ok ((w.putShelf (w.shelf.define target c)).answer (.names c.names))
  | .build target source entries => do
    let c ← match source with
      | some name => w.catalog name
      | none => pure .builtins
    let entries ← entries.mapM fun (key, draft) => return ⟨key, ← w.recipe draft⟩
    return built w target (.ofEntries c entries)
  | .buildDefault target => .ok (built w target .default)
  | .current target => do
    let id := w.shelf.current
    return (w.putShelf (w.shelf.hold target id)).answer (← showRegistry w target id)
  | .setCurrent name => do
    let (previous, shelf) := w.shelf.replaceCurrent (← w.handle name)
    return (w.putShelf shelf).answer (← showRegistry w name previous)
  | .register name key draft => do
    registerAt w name (← w.handle name) ⟨key, ← w.recipe draft⟩
  | .reuse name key newKey => do
    match (← w.registry name).find? key with
    | some e => registerAt w name (← w.handle name) ⟨newKey, e.recipe⟩
    | none => return w.answer .nothing
  | .unregister name key => do
    let id ← w.handle name
    let removed := (← w.registry name).find? key
    return (w.putShelf (w.shelf.unregister id key)).answer (orNothing removed)
  | .entry name key => return w.answer (orNothing ((← w.registry name).find? key))
  | .contains name key => return w.answer (.truth ((← w.registry name).contains key))
  | .keys name => return w.answer (.registry (← w.registry name))
  | .resolve name key target => do resolved w target (w.shelf.resolve (← w.handle name) key)
  | .tokenizer name key target => do resolved w target (w.shelf.tokenizer (← w.handle name) key)
  | .create draft name target => do
    constructed w target (w.shelf.create (← w.recipe draft) (← w.catalog name))
  | .load typeName source target => do
    constructed w target (w.shelf.create (.named typeName) (← source.find w))
  | .catalog typeName source => do
    let c ← source.find w
    return w.answer (.catalog c.names (c.contains typeName))
  | .inspectRegistry name => return w.answer (.text (Inspect.registry (← w.registry name)))
  | .inspectCatalog name => return w.answer (.text (Inspect.catalog (← w.catalog name)))
  | .inspectEntry name key => do
    let found := (← w.registry name).find? key
    return w.answer (.text (Inspect.option (found.map Inspect.entry)))

end RegisteringCommand

inductive Command where
  | analysis (command : AnalysisCommand)
  | editing (command : EditingCommand)
  | registering (command : RegisteringCommand)

def step (w : Workspace) : Command → Except Halt (Step Reply)
  | .analysis command => command.step w
  | .editing command => command.step w
  | .registering command => command.step w

/-- The answers in order with what was signalled for each, and the end of the run. -/
def run (w : Workspace) : List Command → List (Reply × List Signal) × Except Halt Workspace
  | [] => ([], .ok w)
  | command :: rest =>
    match step w command with
    | .error halt => ([], .error halt)
    | .ok done =>
      let (replies, result) := run done.workspace rest
      ((done.reply, done.signals) :: replies, result)

end Linewise.Session
