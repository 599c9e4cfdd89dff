import Linewise.Registry

/-! Registries that are shared by name, one of which is current, the catalogs by name, and what it
takes to have a tokenizer made while constructors change the registries at hand. -/
namespace Linewise

/-- `handles` gives the position in `registries` of the registry that goes by a name. -/
structure Shelf where
  registries : List Registry
  current : Nat
  handles : Std.TreeMap String Nat
  catalogs : Std.TreeMap String Catalog

namespace Shelf

def initial : Shelf := ⟨[.default], 0, ∅, ∅⟩

/-- Puts the catalog under a name. Recipes that hold the one it replaces still hold that. -/
def define (s : Shelf) (name : String) (c : Catalog) : Shelf :=
  { s with catalogs := s.catalogs.insert name c }

def recipe (s : Shelf) (draft : Draft) : Except String Recipe := draft.recipe s.catalogs

def handle? (s : Shelf) (name : String) : Option Nat := s.handles[name]?

/-- Gives the registry at `id` the name besides any that it has. -/
def hold (s : Shelf) (name : String) (id : Nat) : Shelf :=
  { s with handles := s.handles.insert name id }

/-- Adds a registry under a name, which no longer stands for any other. -/
def add (s : Shelf) (name : String) (r : Registry) : Shelf :=
  { s with registries := s.registries ++ [r] }.hold name s.registries.length

def modify (s : Shelf) (id : Nat) (f : Registry → Registry) : Shelf :=
  { s with registries := s.registries.modify id f }

def registry? (s : Shelf) (id : Nat) : Option Registry := s.registries[id]?

/-- Makes the registry at `id` the current one, in the place of the one that is returned. -/
def replaceCurrent (s : Shelf) (id : Nat) : Nat × Shelf := (s.current, { s with current := id })

def register (s : Shelf) (id : Nat) (e : Entry) : Shelf × List Signal :=
  (s.modify id fun r => r.insert e, [.logged (.registering e.key e.recipe.form)])

def unregister (s : Shelf) (id : Nat) (key : String) : Shelf := s.modify id fun r => r.erase key

/-- An edit that names a registry or a catalog that is not there changes nothing. -/
def apply (s : Shelf) : Edit → Shelf × List Signal
  | .register name key draft =>
    match s.handle? name, s.recipe draft with
    | some id, .ok recipe => s.register id ⟨key, recipe⟩
    | _, _ => (s, [])
  | .unregister name key =>
    match s.handle? name with
    | some id => (s.unregister id key, [])
    | none => (s, [])

def applyAll (s : Shelf) : List Edit → Shelf × List Signal
  | [] => (s, [])
  | edit :: rest =>
    let (s, first) := s.apply edit
    let (s, others) := s.applyAll rest
    (s, first ++ others)

structure Outcome (α : Type) where
  result : α
  shelf : Shelf
  signals : List Signal

def construct (s : Shelf) : Constructor → Outcome Construction
  | .builtin tokenizer => ⟨.made tokenizer, s, []⟩
  | .scripted edits ending =>
    let (s, signals) := s.applyAll edits
    ⟨ending, s, .constructed :: signals⟩

/-- Has a tokenizer made by the recipe, with `shared` for names that come without a catalog. -/
def create (s : Shelf) (recipe : Recipe) (shared : Catalog) : Outcome Construction :=
  match recipe.constructor shared with
  | .ok constructor => s.construct constructor
  | .error error => ⟨.refused error, s, []⟩

inductive Resolution where
  | absent
  | made (tokenizer : Instance)
  | failed (error : BuildError)
  | raised (message : String)

/-- What a construction means for whoever asked for `key`, and the entry in the log. An error that is
not fatal counts as if there were no such key. -/
def settle (key : String) : Construction → Resolution × List Signal
  | .made tokenizer => (.made tokenizer, [.logged (.resolved key tokenizer.name)])
  | .refused error =>
    if error.isFatal then (.failed error, [.logged (.failed key error)])
    else (.absent, [.logged (.unavailable key error)])
  | .raised message => (.raised message, [])

/-- Asks the registry at `id` for a tokenizer. The entry is the one from before any constructor ran. -/
def resolve (s : Shelf) (id : Nat) (key : String) : Outcome Resolution :=
  match s.registry? id with
  | none => ⟨.absent, s, []⟩
  | some registry =>
    match registry.find? key with
    | none => ⟨.absent, s, []⟩
    | some entry =>
      let built := s.create entry.recipe registry.catalog
      let (resolution, logged) := settle key built.result
      ⟨resolution, built.shelf, built.signals ++ logged⟩

def tokenizer (s : Shelf) (id : Nat) (key : String) : Outcome Resolution :=
  let resolved := s.resolve id key
  match resolved.result with
  | .absent => { resolved with result := .made (.plain .new) }
  | _ => resolved

end Shelf
end Linewise
