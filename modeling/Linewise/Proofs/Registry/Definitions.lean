import Linewise.Recipe
import Mathlib.Data.String.Basic

/-! A catalog as the outcome of its definitions. A name stands for what was last defined under it, and
that is all that counts when the catalog is asked for a type. -/
namespace Linewise.Catalog

/-- `constructor` was defined under `typeName`, and nothing has been since. -/
def LastDefined (definitions : List (String × Constructor)) (typeName : String)
    (constructor : Constructor) : Prop :=
  ∃ before later, definitions = before ++ (typeName, constructor) :: later ∧
    ∀ d ∈ later, d.1 ≠ typeName

theorem defineAll_eq_append (c : Catalog) (definitions : List (String × Constructor)) :
    c.defineAll definitions = definitions.reverse ++ c := by
  unfold defineAll define
  rw [List.foldl_flip_cons_eq_append, List.map_id']

theorem find?_defineAll_eq_some_iff {definitions : List (String × Constructor)} {typeName : String}
    {constructor : Constructor} :
    (empty.defineAll definitions).find? typeName = some constructor ↔
      LastDefined definitions typeName constructor := by
  unfold find? LastDefined
  rw [defineAll_eq_append, empty, List.append_nil, List.lookup_eq_some_iff]
  simp only [List.reverse_eq_append_iff, List.reverse_cons, bne_iff_ne, ne_comm (a := typeName)]
  constructor
  · rintro ⟨later, before, heq, hlater⟩
    refine ⟨before.reverse, later.reverse, ?_, by simpa using hlater⟩
    rw [heq, List.append_assoc, List.singleton_append]
  · rintro ⟨before, later, heq, hlater⟩
    refine ⟨later.reverse, before.reverse, ?_, by simpa using hlater⟩
    simp [heq]

theorem find?_defineAll_eq_none_iff {definitions : List (String × Constructor)} {typeName : String} :
    (empty.defineAll definitions).find? typeName = none ↔ typeName ∉ definitions.map Prod.fst := by
  unfold find?
  rw [defineAll_eq_append, empty, List.append_nil, List.lookup_eq_none_iff]
  simp only [List.mem_reverse, List.mem_map, not_exists, not_and, bne_iff_ne, ne_comm (a := typeName)]

theorem ordered_names (c : Catalog) : c.names.Pairwise (· < ·) :=
  Std.TreeMap.ordered_keys.imp fun h => compare_lt_iff_lt.1 h

/-- How a catalog comes about: with the builtin tokenizers or without them, and with what is defined
after that. -/
structure Stock where
  builtins : Bool
  added : List (String × Constructor)

namespace Stock

def catalog (p : Stock) : Catalog :=
  (if p.builtins then Catalog.builtins else Catalog.empty).defineAll p.added

/-- All that is defined, the builtin tokenizers included. -/
def definitions (p : Stock) : List (String × Constructor) :=
  (if p.builtins then
    [("PlainTokenizer", .builtin (.plain .new)), ("DispatchTokenizer", .builtin (.engine (.new none 0)))]
  else []) ++ p.added

def defined (p : Stock) : List String := p.definitions.map Prod.fst

def Has (p : Stock) (typeName : String) (constructor : Constructor) : Prop :=
  LastDefined p.definitions typeName constructor

variable {p : Stock} {typeName : String} {constructor : Constructor}

theorem catalog_eq (p : Stock) : p.catalog = empty.defineAll p.definitions := by
  unfold catalog definitions
  cases p.builtins with
  | false => rfl
  | true => simp only [defineAll_eq_append, Catalog.builtins, if_true, List.reverse_append,
      List.append_assoc]

theorem find?_catalog_eq_some_iff :
    p.catalog.find? typeName = some constructor ↔ p.Has typeName constructor := by
  rw [catalog_eq, find?_defineAll_eq_some_iff, Has]

theorem find?_catalog_eq_none_iff : p.catalog.find? typeName = none ↔ typeName ∉ p.defined := by
  rw [catalog_eq, find?_defineAll_eq_none_iff, defined]

theorem mem_names_catalog_iff : typeName ∈ p.catalog.names ↔ typeName ∈ p.defined := by
  rw [mem_names_iff, contains, ← not_iff_not, ← find?_catalog_eq_none_iff,
    Option.not_isSome_iff_eq_none]

theorem constructor_eq_ok (h : p.Has typeName constructor) :
    p.catalog.constructor typeName = .ok constructor := by
  unfold Catalog.constructor
  rw [find?_catalog_eq_some_iff.2 h]

theorem constructor_eq_error (h : typeName ∉ p.defined) :
    p.catalog.constructor typeName = .error (.notFound typeName) := by
  unfold Catalog.constructor
  rw [find?_catalog_eq_none_iff.2 h]

end Stock
end Linewise.Catalog
