import Linewise.Registry
import Mathlib.Data.String.Basic

/-! A registry as the outcome of its history. For each key it has the entry of the last change with that
key, if this one was a registration, and all questions that can be asked of it are answered by that. -/
namespace Linewise

inductive Change where
  | put (e : Entry)
  | drop (key : String)

namespace Change

def key : Change → String
  | .put e => e.key
  | .drop key => key

def apply (r : Registry) : Change → Registry
  | .put e => r.insert e
  | .drop key => r.erase key

abbrev Avoids (key : String) (c : Change) : Prop := c.key ≠ key

end Change

/-- `e` was registered under `key`, and the key was neither registered nor removed since. -/
def Latest (changes : List Change) (key : String) (e : Entry) : Prop :=
  ∃ before later, changes = before ++ .put e :: later ∧ e.key = key ∧
    ∀ c ∈ later, c.Avoids key

theorem not_latest_nil (key : String) (e : Entry) : ¬ Latest [] key e := by
  rintro ⟨before, later, heq, -⟩
  exact absurd heq (by simp)

/-- The last change with the key is among the later ones, or it is the first. -/
theorem latest_cons_iff {c : Change} {changes : List Change} {key : String} {e : Entry} :
    Latest (c :: changes) key e ↔
      Latest changes key e ∨ (c = .put e ∧ e.key = key ∧ ∀ c ∈ changes, c.Avoids key) := by
  constructor
  · rintro ⟨before, later, heq, hkey, hlater⟩
    cases before with
    | nil =>
      obtain ⟨rfl, rfl⟩ := List.cons.inj heq
      exact .inr ⟨rfl, hkey, hlater⟩
    | cons first before =>
      obtain ⟨rfl, rfl⟩ := List.cons.inj heq
      exact .inl ⟨before, later, rfl, hkey, hlater⟩
  · rintro (⟨before, later, rfl, hkey, hlater⟩ | ⟨rfl, hkey, hlater⟩)
    · exact ⟨c :: before, later, rfl, hkey, hlater⟩
    · exact ⟨[], changes, rfl, hkey, hlater⟩

theorem Latest.mem {changes : List Change} {key : String} {e : Entry}
    (h : Latest changes key e) : .put e ∈ changes := by
  obtain ⟨before, later, rfl, -⟩ := h
  simp

theorem not_latest_of_drop {before later : List Change} {key : String}
    (hlater : ∀ c ∈ later, c.Avoids key) (e : Entry) : ¬ Latest (before ++ .drop key :: later) key e := by
  induction before with
  | nil =>
    rw [List.nil_append, latest_cons_iff]
    rintro (hlatest | ⟨hput, -⟩)
    · have hput := hlatest.mem
      obtain ⟨-, -, -, hkey, -⟩ := hlatest
      exact hlater _ hput hkey
    · cases hput
  | cons c before ih =>
    rw [List.cons_append, latest_cons_iff]
    rintro (hlatest | ⟨-, -, havoids⟩)
    · exact ih hlatest
    · exact havoids (.drop key) (by simp) rfl

namespace Registry

def after (r : Registry) (changes : List Change) : Registry := changes.foldl Change.apply r

@[simp] theorem after_nil (r : Registry) : r.after [] = r := rfl

@[simp] theorem after_append (r : Registry) (changes later : List Change) :
    r.after (changes ++ later) = (r.after changes).after later := List.foldl_append

@[simp] theorem catalog_after (r : Registry) (changes : List Change) :
    (r.after changes).catalog = r.catalog := by
  induction changes generalizing r with
  | nil => rfl
  | cons c changes ih =>
    have hfirst : (c.apply r).catalog = r.catalog := by cases c <;> rfl
    exact (ih (c.apply r)).trans hfirst

theorem ofEntries_eq_after (catalog : Catalog) (entries : List Entry) :
    ofEntries catalog entries = (empty catalog).after (entries.map .put) := by
  rw [after, List.foldl_map]
  rfl

theorem find?_apply_eq_some_iff {r : Registry} {c : Change} {key : String} {e : Entry} :
    (c.apply r).find? key = some e ↔
      (c = .put e ∧ e.key = key) ∨ (c.Avoids key ∧ r.find? key = some e) := by
  cases c with
  | put e' =>
    simp only [Change.apply, find?_insert, Change.put.injEq, Change.Avoids, Change.key]
    split
    next hkey =>
      rw [Option.some.injEq]
      constructor
      · rintro rfl
        exact .inl ⟨rfl, hkey⟩
      · rintro (⟨rfl, -⟩ | ⟨hne, -⟩)
        · rfl
        · exact absurd hkey hne
    next hne =>
      constructor
      · intro hfound
        exact .inr ⟨hne, hfound⟩
      · rintro (⟨rfl, hkey⟩ | ⟨-, hfound⟩)
        · exact absurd hkey hne
        · exact hfound
  | drop removed =>
    simp only [Change.apply, find?_erase, Change.Avoids, Change.key, reduceCtorEq, false_and, false_or]
    split
    next hkey => simp [hkey]
    next hne => simp [hne]

/-- The run: what is found is what was registered last, or what was there if no change has the key. -/
theorem find?_after_eq_some_iff {r : Registry} {changes : List Change} {key : String} {e : Entry} :
    (r.after changes).find? key = some e ↔
      Latest changes key e ∨ ((∀ c ∈ changes, c.Avoids key) ∧ r.find? key = some e) := by
  induction changes generalizing r with
  | nil => simp [not_latest_nil]
  | cons c changes ih =>
    have hrest : ((c.apply r).after changes).find? key = some e ↔ _ := ih
    rw [after, List.foldl_cons, ← after, hrest, find?_apply_eq_some_iff, latest_cons_iff,
      List.forall_mem_cons]
    constructor
    · rintro (hlatest | ⟨hlater, ⟨rfl, hkey⟩ | ⟨havoids, hfound⟩⟩)
      · exact .inl (.inl hlatest)
      · exact .inl (.inr ⟨rfl, hkey, hlater⟩)
      · exact .inr ⟨⟨havoids, hlater⟩, hfound⟩
    · rintro ((hlatest | ⟨rfl, hkey, hlater⟩) | ⟨⟨havoids, hlater⟩, hfound⟩)
      · exact .inl hlatest
      · exact .inr ⟨hlater, .inl ⟨rfl, hkey⟩⟩
      · exact .inr ⟨hlater, .inr ⟨havoids, hfound⟩⟩

theorem find?_default_eq_some_iff {key : String} {e : Entry} :
    default.find? key = some e ↔ key = plainKey ∧ e = ⟨key, .named "PlainTokenizer"⟩ := by
  have hfind : default.find? key =
      if plainKey = key then some ⟨plainKey, .named "PlainTokenizer"⟩ else none := by
    simp [default, ofEntries]
  rw [hfind]
  by_cases hkey : key = plainKey
  · simp [hkey, eq_comm]
  · simp [hkey, Ne.symm hkey]

/-- What is found in `r'` is what the changes put there last, or what `r` has if none of them has to do
with the key. -/
structure Becomes (r : Registry) (changes : List Change) (r' : Registry) : Prop where
  find?_iff : ∀ {key : String} {e : Entry}, r'.find? key = some e ↔
    Latest changes key e ∨ ((∀ c ∈ changes, c.Avoids key) ∧ r.find? key = some e)
  catalog_eq : r'.catalog = r.catalog

theorem becomes_after (r : Registry) (changes : List Change) : r.Becomes changes (r.after changes) :=
  ⟨find?_after_eq_some_iff, catalog_after r changes⟩

theorem Becomes.find?_put {r r' : Registry} {before later : List Change} {e : Entry}
    (h : r.Becomes (before ++ .put e :: later) r') (hlater : ∀ c ∈ later, c.Avoids e.key) :
    r'.find? e.key = some e :=
  h.find?_iff.2 (.inl ⟨before, later, rfl, rfl, hlater⟩)

theorem Becomes.find?_drop {r r' : Registry} {before later : List Change} {key : String}
    (h : r.Becomes (before ++ .drop key :: later) r') (hlater : ∀ c ∈ later, c.Avoids key) :
    r'.find? key = none := by
  rw [Option.eq_none_iff_forall_ne_some]
  intro e he
  rcases h.find?_iff.1 he with hlatest | ⟨havoids, -⟩
  · exact not_latest_of_drop hlater e hlatest
  · exact havoids (.drop key) (by simp) rfl

/-- All that the registry says of its keys is what the changes say of them. -/
structure Records (changes : List Change) (r : Registry) : Prop where
  find?_iff : ∀ {key : String} {e : Entry}, r.find? key = some e ↔ Latest changes key e
  key_eq : ∀ {key : String} {e : Entry}, (key, e) ∈ r.entries.toList → e.key = key
  contains_iff : ∀ {key : String}, r.contains key = true ↔ ∃ e, Latest changes key e
  mem_keys_iff : ∀ {key : String}, key ∈ r.keys ↔ ∃ e, Latest changes key e
  ordered : r.keys.Pairwise (· < ·)
  size_eq : r.size = r.keys.length
  isEmpty_iff : r.isEmpty = true ↔ ∀ key e, ¬ Latest changes key e

theorem ordered_keys (r : Registry) : r.keys.Pairwise (· < ·) :=
  Std.TreeMap.ordered_keys.imp fun h => compare_lt_iff_lt.1 h

theorem isEmpty_eq_true_iff {r : Registry} : r.isEmpty = true ↔ ∀ key, r.find? key = none := by
  rw [isEmpty, ← Std.TreeMap.isEmpty_keys, List.isEmpty_iff, List.eq_nil_iff_forall_not_mem]
  refine forall_congr' fun key => ?_
  rw [← Option.not_isSome_iff_eq_none]
  exact not_congr mem_keys_iff

theorem records_after (catalog : Catalog) (changes : List Change) :
    ((empty catalog).after changes).Records changes := by
  have hfind {key : String} {e : Entry} :
      ((empty catalog).after changes).find? key = some e ↔ Latest changes key e := by
    rw [find?_after_eq_some_iff]
    simp
  have hsome {key : String} :
      (((empty catalog).after changes).find? key).isSome = true ↔ ∃ e, Latest changes key e := by
    rw [Option.isSome_iff_exists]
    exact exists_congr fun e => hfind
  refine ⟨hfind, ?_, ?_, ?_, ordered_keys _, (length_keys _).symm, ?_⟩
  · intro key e hmem
    have hfound : ((empty catalog).after changes).find? key = some e :=
      Std.TreeMap.mem_toList_iff_getElem?_eq_some.1 hmem
    obtain ⟨-, -, -, hkey, -⟩ := hfind.1 hfound
    exact hkey
  · intro key
    rw [contains_eq_isSome]
    exact hsome
  · intro key
    rw [mem_keys_iff]
    exact hsome
  · rw [isEmpty_eq_true_iff]
    refine forall_congr' fun key => ?_
    rw [Option.eq_none_iff_forall_ne_some]
    exact forall_congr' fun e => not_congr hfind

end Registry
end Linewise
