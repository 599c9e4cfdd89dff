import Linewise.Proofs.Registry.Changes
import Linewise.Shelf

/-! What becomes of a shelf while tokenizers are made. The edits of a constructor come to a list of
changes, each of the registry at one position, and nothing else on the shelf is any different. -/
namespace Linewise

def changesAt (id : Nat) (changes : List (Nat × Change)) : List Change :=
  changes.filterMap fun p => if p.1 = id then some p.2 else none

theorem changesAt_cons (id other : Nat) (c : Change) (changes : List (Nat × Change)) :
    changesAt id ((other, c) :: changes) =
      if other = id then c :: changesAt id changes else changesAt id changes := by
  simp only [changesAt, List.filterMap_cons]
  split_ifs <;> rfl

theorem changesAt_append (id : Nat) (changes later : List (Nat × Change)) :
    changesAt id (changes ++ later) = changesAt id changes ++ changesAt id later :=
  List.filterMap_append

theorem changesAt_eq_nil {id : Nat} {changes : List (Nat × Change)} (h : ∀ p ∈ changes, p.1 ≠ id) :
    changesAt id changes = [] := by
  rw [changesAt, List.filterMap_eq_nil_iff]
  intro p hp
  exact if_neg (h p hp)

namespace Shelf

variable {s : Shelf} {id : Nat}

theorem handle?_add (s : Shelf) (name : String) (r : Registry) :
    (s.add name r).handle? name = some s.registries.length := by
  simp [add, hold, handle?]

theorem registry?_add (s : Shelf) (name : String) (r : Registry) :
    registry? (s.add name r) s.registries.length = some r := by
  simp [add, hold, registry?]

def change (s : Shelf) (id : Nat) (c : Change) : Shelf := s.modify id fun r => c.apply r

theorem change_add (s : Shelf) (name : String) (r : Registry) (c : Change) :
    (s.add name r).change s.registries.length c = s.add name (c.apply r) := by
  simp [change, modify, add, hold, List.modify_eq_take_drop]

theorem registry?_change (s : Shelf) (other id : Nat) (c : Change) :
    registry? (s.change other c) id = if other = id then (s.registry? id).map c.apply else s.registry? id := by
  rw [change, modify, registry?, List.getElem?_modify, registry?]
  split_ifs <;> simp

def changeAll (s : Shelf) (changes : List (Nat × Change)) : Shelf :=
  changes.foldl (fun s p => s.change p.1 p.2) s

@[simp] theorem changeAll_nil (s : Shelf) : s.changeAll [] = s := rfl

@[simp] theorem changeAll_cons (s : Shelf) (p : Nat × Change) (changes : List (Nat × Change)) :
    s.changeAll (p :: changes) = (s.change p.1 p.2).changeAll changes := rfl

@[simp] theorem handles_changeAll (s : Shelf) (changes : List (Nat × Change)) :
    (s.changeAll changes).handles = s.handles := by
  induction changes generalizing s with
  | nil => rfl
  | cons p changes ih => exact ih (s.change p.1 p.2)

@[simp] theorem catalogs_changeAll (s : Shelf) (changes : List (Nat × Change)) :
    (s.changeAll changes).catalogs = s.catalogs := by
  induction changes generalizing s with
  | nil => rfl
  | cons p changes ih => exact ih (s.change p.1 p.2)

@[simp] theorem current_changeAll (s : Shelf) (changes : List (Nat × Change)) :
    (s.changeAll changes).current = s.current := by
  induction changes generalizing s with
  | nil => rfl
  | cons p changes ih => exact ih (s.change p.1 p.2)

@[simp] theorem length_registries_changeAll (s : Shelf) (changes : List (Nat × Change)) :
    (s.changeAll changes).registries.length = s.registries.length := by
  induction changes generalizing s with
  | nil => rfl
  | cons p changes ih => exact (ih (s.change p.1 p.2)).trans (List.length_modify ..)

/-- Each registry undergoes the changes at its position and no others. -/
theorem registry?_changeAll (s : Shelf) (changes : List (Nat × Change)) (id : Nat) :
    registry? (s.changeAll changes) id = (s.registry? id).map fun r => r.after (changesAt id changes) := by
  induction changes generalizing s with
  | nil => simp [changesAt]
  | cons p changes ih =>
    obtain ⟨other, c⟩ := p
    rw [changeAll_cons, ih, registry?_change, changesAt_cons]
    split_ifs
    · rw [Option.map_map]
      rfl
    · rfl

theorem becomes_changeAll {r : Registry} (hr : s.registry? id = some r) (changes : List (Nat × Change)) :
    ∃ r', registry? (s.changeAll changes) id = some r' ∧ r.Becomes (changesAt id changes) r' := by
  refine ⟨r.after (changesAt id changes), ?_, r.becomes_after _⟩
  rw [registry?_changeAll, hr, Option.map_some]

end Shelf

/-- What the edit comes to, if the names in it stand for anything. -/
def Edit.change? (s : Shelf) : Edit → Option (Nat × Change)
  | .register name key draft =>
    match s.handle? name, s.recipe draft with
    | some id, .ok recipe => some (id, .put ⟨key, recipe⟩)
    | _, _ => none
  | .unregister name key => (s.handle? name).map fun id => (id, .drop key)

theorem Edit.change?_congr {s s' : Shelf} (hhandles : s'.handles = s.handles)
    (hcatalogs : s'.catalogs = s.catalogs) (edit : Edit) : edit.change? s' = edit.change? s := by
  cases edit <;> simp only [change?, Shelf.handle?, Shelf.recipe, hhandles, hcatalogs]

def Constructor.changes (s : Shelf) : Constructor → List (Nat × Change)
  | .builtin _ => []
  | .scripted edits _ => edits.filterMap fun edit => edit.change? s

def Recipe.changes (s : Shelf) (shared : Catalog) (recipe : Recipe) : List (Nat × Change) :=
  match recipe.constructor shared with
  | .ok constructor => constructor.changes s
  | .error _ => []

theorem Recipe.changes_congr {s s' : Shelf} (hhandles : s'.handles = s.handles)
    (hcatalogs : s'.catalogs = s.catalogs) (shared : Catalog) (recipe : Recipe) :
    recipe.changes s' shared = recipe.changes s shared := by
  have hedit := Edit.change?_congr hhandles hcatalogs
  simp only [changes, Constructor.changes, hedit]

def Recipe.Spares (s : Shelf) (id : Nat) (shared : Catalog) (recipe : Recipe) : Prop :=
  ∀ p ∈ recipe.changes s shared, p.1 ≠ id

namespace Shelf

variable {s : Shelf} {id : Nat}

theorem apply_shelf (s : Shelf) (edit : Edit) :
    (s.apply edit).1 = s.changeAll (edit.change? s).toList := by
  cases edit with
  | register name key draft =>
    simp only [apply, Edit.change?]
    cases s.handle? name <;> cases s.recipe draft <;> rfl
  | unregister name key =>
    simp only [apply, Edit.change?]
    cases s.handle? name <;> rfl

/-- The names mean the same to each edit, since those before it have only changed registries. -/
theorem applyAll_shelf (s : Shelf) (edits : List Edit) :
    (s.applyAll edits).1 = s.changeAll (edits.filterMap fun edit => edit.change? s) := by
  induction edits generalizing s with
  | nil => rfl
  | cons edit edits ih =>
    have hsame (later : Edit) : later.change? (s.apply edit).1 = later.change? s := by
      rw [apply_shelf]
      exact Edit.change?_congr (handles_changeAll s _) (catalogs_changeAll s _) later
    refine (ih (s.apply edit).1).trans ?_
    simp only [hsame]
    rw [apply_shelf, List.filterMap_cons]
    cases edit.change? s <;> rfl

theorem construct_shelf (s : Shelf) (constructor : Constructor) :
    (s.construct constructor).shelf = s.changeAll (constructor.changes s) := by
  cases constructor with
  | builtin tokenizer => rfl
  | scripted edits ending => exact applyAll_shelf s edits

theorem create_shelf (s : Shelf) (recipe : Recipe) (shared : Catalog) :
    (s.create recipe shared).shelf = s.changeAll (recipe.changes s shared) := by
  unfold create Recipe.changes
  cases recipe.constructor shared with
  | error error => rfl
  | ok constructor => exact construct_shelf s constructor

/-- Whatever comes of it, the registry that is asked undergoes no change but those of the recipe that
it has for the key. -/
theorem resolve_shelf (s : Shelf) (id : Nat) (key : String) :
    ∃ changes, (s.resolve id key).shelf = s.changeAll changes ∧
      (changes = [] ∨ ∃ r e, s.registry? id = some r ∧ r.find? key = some e ∧
        changes = e.recipe.changes s r.catalog) := by
  unfold resolve
  split
  next => exact ⟨[], rfl, .inl rfl⟩
  next r hr =>
    split
    next => exact ⟨[], rfl, .inl rfl⟩
    next e he => exact ⟨_, create_shelf s e.recipe r.catalog, .inr ⟨r, e, hr, he, rfl⟩⟩

theorem tokenizer_shelf (s : Shelf) (id : Nat) (key : String) :
    (s.tokenizer id key).shelf = (s.resolve id key).shelf := by
  simp only [tokenizer]
  split <;> rfl

end Shelf
end Linewise
