import Linewise.Recipe

/-! Registries: a recipe for each key, and the catalog for recipes that only give a name. -/
namespace Linewise

structure Entry where
  key : String
  recipe : Recipe

structure Registry where
  entries : Std.TreeMap String Entry
  catalog : Catalog

namespace Registry

def empty (catalog : Catalog) : Registry := ⟨∅, catalog⟩

/-- Puts the entry in the place of any other with its key. -/
def insert (r : Registry) (e : Entry) : Registry := { r with entries := r.entries.insert e.key e }

def erase (r : Registry) (key : String) : Registry := { r with entries := r.entries.erase key }

def find? (r : Registry) (key : String) : Option Entry := r.entries[key]?

def contains (r : Registry) (key : String) : Bool := r.entries.contains key

def keys (r : Registry) : List String := r.entries.keys

def size (r : Registry) : Nat := r.entries.size

def isEmpty (r : Registry) : Bool := r.entries.isEmpty

/-- The entries in turn, so that the last with a key is the one that stays. -/
def ofEntries (catalog : Catalog) (entries : List Entry) : Registry :=
  entries.foldl insert (empty catalog)

@[simp] theorem find?_empty (catalog : Catalog) (key : String) : (empty catalog).find? key = none := by
  simp [find?, empty]

@[simp] theorem find?_insert (r : Registry) (e : Entry) (key : String) :
    (r.insert e).find? key = if e.key = key then some e else r.find? key := by
  simp [find?, insert, Std.TreeMap.getElem?_insert]

@[simp] theorem find?_erase (r : Registry) (removed key : String) :
    (r.erase removed).find? key = if removed = key then none else r.find? key := by
  simp [find?, erase, Std.TreeMap.getElem?_erase]

theorem contains_eq_isSome (r : Registry) (key : String) : r.contains key = (r.find? key).isSome :=
  Std.TreeMap.contains_eq_isSome_getElem?

theorem mem_keys_iff {r : Registry} {key : String} : key ∈ r.keys ↔ (r.find? key).isSome := by
  rw [keys, Std.TreeMap.mem_keys, Std.TreeMap.mem_iff_isSome_getElem?, find?]

@[simp] theorem length_keys (r : Registry) : r.keys.length = r.size := Std.TreeMap.length_keys

def plainKey : String := "text/plain"

def conventionalKeys : List String :=
  [plainKey, "text/c", "text/css", "text/html", "text/javascript", "text/json", "text/markdown",
    "text/python", "text/rust", "text/xml"]

def default : Registry := ofEntries .builtins [⟨plainKey, .named "PlainTokenizer"⟩]

end Registry
end Linewise
