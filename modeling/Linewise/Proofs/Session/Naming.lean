import Linewise.Proofs.Registry.Definitions
import Linewise.Proofs.Session.Constructions

/-! Recipes that give a name. The name is looked up when a tokenizer is asked for, in the catalog that the
recipe carries or else in that of the registry, and in no other. -/
namespace Linewise

open Catalog

def Recipe.ofName (own : Option Catalog) (typeName : String) : Recipe :=
  match own with
  | some catalog => .namedIn catalog typeName
  | none => .named typeName

theorem Recipe.constructor_ofName (shared : Catalog) (own : Option Catalog) (typeName : String) :
    (Recipe.ofName own typeName).constructor shared = (own.getD shared).constructor typeName := by
  cases own <;> rfl

theorem BuildError.display_notFound (typeName : String) :
    (BuildError.notFound typeName).display =
      "tokenizer construction failed (not found): no tokenizer type named `" ++ typeName ++ "`" := by
  have hprefix : "tokenizer construction failed (" ++ "not found" ++ "): " ++
      "no tokenizer type named `" =
      "tokenizer construction failed (not found): no tokenizer type named `" := by decide
  unfold display notFound
  rw [BuildCause.text, ← String.append_assoc, ← String.append_assoc, hprefix]

theorem Event.record_unavailable_notFound (key typeName : String) :
    (Event.unavailable key (.notFound typeName)).record =
      (.warn, [("key", key), ("kind", "not found"), ("error",
        "tokenizer construction failed (not found): no tokenizer type named `" ++ typeName ++ "`")]) := by
  rw [← BuildError.display_notFound]
  rfl

namespace Shelf

variable {s : Shelf} {shared : Stock} {own : Option Stock} {typeName : String}

theorem constructor_ofName_stock (shared : Stock) (own : Option Stock) (typeName : String) :
    (Recipe.ofName (own.map Stock.catalog) typeName).constructor shared.catalog =
      (own.getD shared).catalog.constructor typeName := by
  rw [Recipe.constructor_ofName]
  cases own <;> rfl

theorem create_ofName (s : Shelf) (own : Option Stock) {constructor : Constructor}
    (h : (own.getD shared).Has typeName constructor) :
    s.create (.ofName (own.map Stock.catalog) typeName) shared.catalog = s.outcome constructor := by
  unfold create
  rw [constructor_ofName_stock, Stock.constructor_eq_ok h]
  exact construct_eq s constructor

theorem create_ofName_missing (s : Shelf) (own : Option Stock) (h : typeName ∉ (own.getD shared).defined) :
    s.create (.ofName (own.map Stock.catalog) typeName) shared.catalog =
      ⟨.refused (.notFound typeName), s, []⟩ := by
  unfold create
  rw [constructor_ofName_stock, Stock.constructor_eq_error h]

/-- What it comes to that the registry at `id` is asked for `key`, and has under it the name `typeName`
with that of `source` to look it up in: what was last defined under the name is run and nothing else, or
the name is reported as not found. -/
structure ResolvesName (s : Shelf) (id : Nat) (key : String) (recipe : Recipe) (shared : Catalog)
    (source : Stock) (typeName : String) : Prop where
  found : ∀ {constructor : Constructor}, source.Has typeName constructor →
    let built := s.outcome constructor
    s.create recipe shared = built ∧
    (∃ (answer : Resolution) (events : List Event),
      settle key constructor.ending = (answer, events.map .logged) ∧
      Answers key constructor.ending answer answer.orPlain (events.map Event.record) ∧
      s.resolve id key = ⟨answer, built.shelf, built.signals ++ events.map .logged⟩) ∧
    Signal.constructions (s.resolve id key).signals = constructor.runs
  missing : typeName ∉ source.defined → ∃ event,
    s.create recipe shared = ⟨.refused (.notFound typeName), s, []⟩ ∧
    s.resolve id key = ⟨.absent, s, [.logged event]⟩ ∧
    event.record = (.warn, [("key", key), ("kind", "not found"), ("error",
      "tokenizer construction failed (not found): no tokenizer type named `" ++ typeName ++ "`")])

theorem resolvesName {id : Nat} {r : Registry} (hr : s.registry? id = some r)
    (hshared : r.catalog = shared.catalog) {key : String} {e : Entry} (he : r.find? key = some e)
    (hrecipe : e.recipe = .ofName (own.map Stock.catalog) typeName) :
    s.ResolvesName id key e.recipe r.catalog (own.getD shared) typeName := by
  rw [hshared, hrecipe]
  have hresolve := resolve_eq hr he
  rw [hshared, hrecipe] at hresolve
  constructor
  · intro constructor hhas built
    have hcreate : s.create _ shared.catalog = built := create_ofName s own hhas
    obtain ⟨answer, events, hsettle, hanswers⟩ := exists_settle_eq key constructor.ending
    have hending : built.result = constructor.ending := rfl
    simp only [hcreate, hending, hsettle] at hresolve
    refine ⟨hcreate, ⟨answer, events, hsettle, hanswers, hresolve⟩, ?_⟩
    rw [hresolve]
    show Signal.constructions (List.replicate constructor.runs .constructed ++
      (changeEvents (constructor.changes s)).map .logged ++ events.map .logged) = constructor.runs
    rw [List.append_assoc, ← List.map_append]
    exact Signal.constructions_ofBuilding constructor.runs _
  · intro hmissing
    have hcreate := create_ofName_missing s own hmissing
    rw [hcreate] at hresolve
    exact ⟨_, hcreate, hresolve, Event.record_unavailable_notFound key typeName⟩

end Shelf

/-- The names of the catalog in order, each once, and what asking it for a type comes to. -/
structure Catalog.Lists (c : Catalog) (p : Stock) : Prop where
  ordered : c.names.Pairwise (· < ·)
  mem_iff : ∀ {typeName : String}, typeName ∈ c.names ↔ typeName ∈ p.defined
  contains_iff : ∀ {typeName : String}, c.contains typeName = true ↔ typeName ∈ c.names
  loads : ∀ {typeName : String} {constructor : Constructor}, p.Has typeName constructor →
    ∀ s : Shelf, s.create (.named typeName) c = s.outcome constructor
  refuses : ∀ {typeName : String}, typeName ∉ c.names →
    ∀ s : Shelf, s.create (.named typeName) c = ⟨.refused (.notFound typeName), s, []⟩

theorem Catalog.Stock.lists (p : Stock) : p.catalog.Lists p where
  ordered := p.catalog.ordered_names
  mem_iff := mem_names_catalog_iff
  contains_iff := mem_names_iff.symm
  loads := fun hhas s => Shelf.create_ofName s none hhas
  refuses := fun hmissing s =>
    Shelf.create_ofName_missing s none (hmissing ∘ mem_names_catalog_iff.2)

namespace Session

/-- Whatever is done after a registry is built, a name in it is looked up when it is asked for, in the
catalog that came with the name or else in the one that the registry has owned from the start. All along
a command that does not ask for a tokenizer has no constructor run, and every catalog lists its names. -/
theorem run_named {w w' : Workspace} {id : Nat} {r : Registry} (hr : w.shelf.registry? id = some r)
    {shared : Stock} (hshared : r.catalog = shared.catalog) {commands : List Command}
    {replies : List (Reply × List Signal)} (hrun : run w commands = (replies, .ok w')) :
    (∃ r', w'.shelf.registry? id = some r' ∧ r'.catalog = shared.catalog ∧
      ∀ {key typeName : String} {e : Entry} (own : Option Stock), r'.find? key = some e →
        e.recipe = .ofName (own.map Stock.catalog) typeName →
          w'.shelf.ResolvesName id key e.recipe r'.catalog (own.getD shared) typeName) ∧
    (∀ {command : Command} {answer : Reply × List Signal}, (command, answer) ∈ commands.zip replies →
      command.target? = none → Signal.constructions answer.2 = 0) ∧
    ∀ p : Stock, p.catalog.Lists p := by
  refine ⟨?_, ?_, Stock.lists⟩
  · obtain ⟨changes, hr'⟩ := run_exists_changes hr hrun
    have hcatalog : (r.after changes).catalog = shared.catalog :=
      (r.catalog_after changes).trans hshared
    refine ⟨_, hr', hcatalog, ?_⟩
    intro key typeName e own he hrecipe
    exact Shelf.resolvesName hr' hcatalog he hrecipe
  · intro command answer hmem htarget
    have hle := run_constructions_le hrun hmem
    rw [htarget] at hle
    exact Nat.le_zero.1 hle

/-- The name is defined in the catalog of the registry as well, and twice in that of the entry. Another
name that the entry's catalog lacks is not looked up in the one of the registry, which has it. -/
theorem run_named_redefined :
    let upper : Constructor := .scripted [] (.made (.engine (.new none 5)))
    let own : Stock := ⟨false, [("Upper", .builtin (.plain .new)), ("Upper", upper)]⟩
    let shared : Stock := ⟨true, [("Upper", .builtin (.engine (.new none 9)))]⟩
    let lost : Entry := ⟨"lost", .ofName (some own.catalog) "PlainTokenizer"⟩
    let r := (Registry.empty shared.catalog).insert lost
    let w := Workspace.initial.putShelf ((Shelf.initial.define "own" own.catalog).add "r" r)
    let command : Command := .registering (.register "r" "mine" (.namedIn "own" "Upper"))
    w.shelf.registry? 1 = some r ∧ r.catalog = shared.catalog ∧ ∃ answer w',
      run w [command] = ([answer], .ok w') ∧ Signal.constructions answer.2 = 0 ∧
      (w'.shelf.resolve 1 "mine").result = .made (.engine (.new none 5)) ∧
      Signal.constructions (w'.shelf.resolve 1 "mine").signals = 1 ∧
      "PlainTokenizer" ∈ shared.catalog.names ∧ (w'.shelf.resolve 1 "lost").result = .absent := by
  intro upper own shared lost r w command
  let mine : Entry := ⟨"mine", .ofName (some own.catalog) "Upper"⟩
  have hr : w.shelf.registry? 1 = some r := Shelf.registry?_add ..
  have hid : w.handle "r" = .ok 1 := Workspace.handle_eq_ok_iff.2 (Shelf.handle?_add ..)
  have hcatalog : w.shelf.catalogs["own"]? = some own.catalog := by
    simp [w, Workspace.putShelf, Shelf.add, Shelf.hold, Shelf.define]
  have hrecipe : w.recipe (.namedIn "own" "Upper") = .ok mine.recipe := by
    rw [Workspace.recipe_eq_ok_iff, Draft.recipe, hcatalog]
    rfl
  have hstep : step w command = .ok ⟨.registry (r.insert mine), [.logged (.registering "mine" .named)],
      w.putShelf (w.shelf.change 1 (.put mine))⟩ := by
    have hregister : RegisteringCommand.registerAt w "r" 1 mine = .ok _ :=
      registerAt_eq_ok_iff.2 ⟨r, hr, rfl⟩
    exact bind_eq_ok_iff.2 ⟨1, hid, bind_eq_ok_iff.2 ⟨_, hrecipe, hregister⟩⟩
  have hrun := run_cons_of_ok hstep []
  have hshared : r.catalog = shared.catalog := rfl
  obtain ⟨⟨r', hr', -, hnames⟩, hquiet, hlists⟩ := run_named hr hshared hrun
  have hr'_eq : r' = r.insert mine := by
    change Shelf.registry? (w.shelf.change 1 (.put mine)) 1 = some r' at hr'
    rw [Shelf.registry?_change, if_pos rfl, hr] at hr'
    exact (Option.some.inj hr').symm
  have hmine : r'.find? "mine" = some mine := by simp [hr'_eq, mine]
  have hlost : r'.find? "lost" = some lost := by simp [hr'_eq, mine, r, lost]
  have hhas : own.Has "Upper" upper := ⟨[("Upper", .builtin (.plain .new))], [], rfl, by simp⟩
  have hlacks : "PlainTokenizer" ∉ own.defined := by simp [own, Stock.defined, Stock.definitions]
  have hdefined : "PlainTokenizer" ∈ shared.defined := by
    simp [shared, Stock.defined, Stock.definitions]
  obtain ⟨-, ⟨answer, events, -, hanswers, hfound⟩, hruns⟩ := (hnames (some own) hmine rfl).found hhas
  obtain ⟨event, -, hmissing, -⟩ := (hnames (some own) hlost rfl).missing hlacks
  refine ⟨hr, hshared, _, _, hrun, hquiet List.mem_cons_self rfl, ?_, hruns, ?_, ?_⟩
  · rw [hfound]
    generalize events.map Event.record = log at hanswers
    cases hanswers
    rfl
  · exact (hlists shared).mem_iff.2 hdefined
  · rw [hmissing]

end Session
end Linewise
