import Linewise.Instance
import Std.Data.TreeMap.Lemmas

/-! How tokenizers are made: recipes, the constructors that they lead to, and catalogs of named
constructors. A draft is a recipe that still has a catalog by name; the catalog that goes by the name
when the recipe is registered is the one it keeps. A type is looked up in it only when a tokenizer is
asked for. -/
namespace Linewise

inductive Construction where
  | made (tokenizer : Instance)
  | refused (error : BuildError)
  | raised (message : String)

mutual

/-- A type comes from the catalog of the given name or else from that of the registry. -/
inductive Draft where
  | named (typeName : String)
  | namedIn (catalog typeName : String)
  | factory (constructor : Constructor)
  | engine (grammar : Grammar) (languageIndex : UInt32)

/-- A scripted constructor can change registries before it comes to an end. -/
inductive Constructor where
  | builtin (tokenizer : Instance)
  | scripted (edits : List Edit) (ending : Construction)

/-- A change of the registry that goes by the given name when the change is made. The catalog of a
draft is found at that time too. -/
inductive Edit where
  | register (registry key : String) (draft : Draft)
  | unregister (registry key : String)

end

/-- The constructors by type name, the last to be defined at the head. -/
abbrev Catalog := List (String × Constructor)

namespace Catalog

def empty : Catalog := []

def define (c : Catalog) (typeName : String) (constructor : Constructor) : Catalog :=
  (typeName, constructor) :: c

def find? (c : Catalog) (typeName : String) : Option Constructor := c.lookup typeName

def contains (c : Catalog) (typeName : String) : Bool := (c.find? typeName).isSome

def index (c : Catalog) : Std.TreeMap String Constructor :=
  c.foldr (fun (name, constructor) rest => rest.insert name constructor) ∅

/-- Each name that is defined, in order. -/
def names (c : Catalog) : List String := c.index.keys

theorem getElem?_index (c : Catalog) (typeName : String) : c.index[typeName]? = c.find? typeName := by
  induction c with
  | nil => simp [index, find?]
  | cons definition c ih =>
    obtain ⟨name, constructor⟩ := definition
    have step : index ((name, constructor) :: c) = (index c).insert name constructor := rfl
    rw [step, Std.TreeMap.getElem?_insert, ih]
    by_cases h : typeName = name
    · simp [find?, h]
    · simp [find?, List.lookup_cons, Ne.symm h, beq_eq_false_iff_ne.2 h]

theorem mem_names_iff {c : Catalog} {typeName : String} :
    typeName ∈ c.names ↔ c.contains typeName = true := by
  rw [names, Std.TreeMap.mem_keys, Std.TreeMap.mem_iff_isSome_getElem?, getElem?_index, contains]

def defineAll (c : Catalog) (definitions : List (String × Constructor)) : Catalog :=
  definitions.foldl (fun c (name, constructor) => c.define name constructor) c

def builtins : Catalog :=
  empty.defineAll
    [("PlainTokenizer", .builtin (.plain .new)), ("DispatchTokenizer", .builtin (.engine (.new none 0)))]

def constructor (c : Catalog) (typeName : String) : Except BuildError Constructor :=
  match c.find? typeName with
  | some constructor => .ok constructor
  | none => .error (.notFound typeName)

end Catalog

/-- A type is looked up in the catalog that the recipe holds or else in that of the registry. A new
engine shares its grammar with all the others from the same recipe. -/
inductive Recipe where
  | named (typeName : String)
  | namedIn (catalog : Catalog) (typeName : String)
  | factory (constructor : Constructor)
  | engine (grammar : Grammar) (languageIndex : UInt32)

namespace Recipe

def form : Recipe → RecipeForm
  | .named _ | .namedIn _ _ => .named
  | .factory _ => .factory
  | .engine _ _ => .engine

def constructor (shared : Catalog) : Recipe → Except BuildError Constructor
  | .named typeName => shared.constructor typeName
  | .namedIn catalog typeName => catalog.constructor typeName
  | .factory constructor => .ok constructor
  | .engine grammar languageIndex => .ok (.builtin (.engine (.new (some grammar) languageIndex)))

end Recipe

def Draft.recipe (catalogs : Std.TreeMap String Catalog) : Draft → Except String Recipe
  | .named typeName => .ok (.named typeName)
  | .namedIn name typeName =>
    match catalogs[name]? with
    | some catalog => .ok (.namedIn catalog typeName)
    | none => .error name
  | .factory constructor => .ok (.factory constructor)
  | .engine grammar languageIndex => .ok (.engine grammar languageIndex)

end Linewise
