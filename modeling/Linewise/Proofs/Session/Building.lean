import Linewise.Proofs.Session.Runs
import Linewise.Proofs.Shelf.Resolution

/-! What a command on catalogs and registries can do: to the shelf, to the tokenizers, and in what is
signalled. Only a command that asks for a tokenizer has a constructor run or changes a tokenizer. -/
namespace Linewise

namespace Signal

def ofBuilding (runs : Nat) (events : List Event) : List Signal :=
  List.replicate runs .constructed ++ events.map .logged

@[simp] theorem constructions_append (s t : List Signal) :
    constructions (s ++ t) = constructions s + constructions t :=
  List.count_append

@[simp] theorem constructions_ofBuilding (runs : Nat) (events : List Event) :
    constructions (ofBuilding runs events) = runs := by
  have hlogged : constructions (events.map .logged) = 0 := by
    unfold constructions
    rw [List.count_eq_zero]
    simp
  have hruns : constructions (List.replicate runs .constructed) = runs := List.count_replicate_self
  rw [ofBuilding, constructions_append, hruns, hlogged, Nat.add_zero]

@[simp] theorem changes_ofBuilding (runs : Nat) (events : List Event) :
    changes (ofBuilding runs events) = [] := by
  unfold changes ofBuilding
  rw [List.filterMap_eq_nil_iff]
  intro signal hsignal
  rcases List.mem_append.1 hsignal with hsignal | hsignal
  · rw [List.eq_of_mem_replicate hsignal]
  · obtain ⟨event, -, rfl⟩ := List.mem_map.1 hsignal
    rfl

end Signal

theorem Recipe.runs_le_one (shared : Catalog) (recipe : Recipe) : recipe.runs shared ≤ 1 := by
  unfold Recipe.runs Constructor.runs
  split
  next constructor _ => cases constructor <;> simp
  next => exact Nat.zero_le 1

namespace Shelf

theorem create_signals (s : Shelf) (recipe : Recipe) (shared : Catalog) :
    (s.create recipe shared).signals =
      Signal.ofBuilding (recipe.runs shared) (changeEvents (recipe.changes s shared)) := by
  rw [create_eq]
  rfl

/-- To ask a registry for a tokenizer is to run one constructor at the most. -/
theorem resolve_signals (s : Shelf) (id : Nat) (key : String) :
    ∃ runs events, runs ≤ 1 ∧ (s.resolve id key).signals = Signal.ofBuilding runs events := by
  unfold resolve
  split
  next => exact ⟨0, [], Nat.zero_le 1, rfl⟩
  next r _ =>
    split
    next => exact ⟨0, [], Nat.zero_le 1, rfl⟩
    next e _ =>
      obtain ⟨answer, events, hsettle, -⟩ :=
        exists_settle_eq key (s.create e.recipe r.catalog).result
      refine ⟨e.recipe.runs r.catalog, changeEvents (e.recipe.changes s r.catalog) ++ events,
        e.recipe.runs_le_one r.catalog, ?_⟩
      simp only [hsettle, create_signals]
      simp [Signal.ofBuilding]

theorem tokenizer_signals (s : Shelf) (id : Nat) (key : String) :
    (s.tokenizer id key).signals = (s.resolve id key).signals := by
  rw [tokenizer_eq]

/-- All that a command can do to a shelf. -/
inductive Moves (s : Shelf) : Shelf → Prop
  | changeAll (changes : List (Nat × Change)) : Moves s (s.changeAll changes)
  | define (name : String) (c : Catalog) : Moves s (s.define name c)
  | add (name : String) (r : Registry) : Moves s (s.add name r)
  | hold (name : String) : Moves s (s.hold name s.current)
  | replaceCurrent {name : String} {id : Nat} (hid : s.handle? name = some id) :
      Moves s (s.replaceCurrent id).2

theorem Moves.refl (s : Shelf) : s.Moves s := .changeAll []

/-- A registry stays where it is. -/
theorem Moves.exists_changes {s s' : Shelf} (hmoves : s.Moves s') {id : Nat} {r : Registry}
    (hr : s.registry? id = some r) : ∃ changes, s'.registry? id = some (r.after changes) := by
  cases hmoves with
  | changeAll changes =>
    refine ⟨changesAt id changes, ?_⟩
    rw [registry?_changeAll, hr]
    rfl
  | define name c => exact ⟨[], hr⟩
  | add name r' =>
    obtain ⟨hid, -⟩ := List.getElem?_eq_some_iff.1 hr
    exact ⟨[], (List.getElem?_append_left hid).trans hr⟩
  | hold name => exact ⟨[], hr⟩
  | replaceCurrent hid => exact ⟨[], hr⟩

end Shelf

theorem Workspace.tokenizer_eq_of_insert {w v : Workspace} {m other : String} {i : Instance}
    (h : other ≠ m) (hv : v.tokenizers = w.tokenizers.insert other i) :
    v.tokenizer m = w.tokenizer m := by
  rw [tokenizer, hv, Std.TreeMap.getElem?_insert, tokenizer]
  simp [h]

namespace Session

def RegisteringCommand.target? : RegisteringCommand → Option String
  | .resolve _ _ target | .tokenizer _ _ target | .create _ _ target | .load _ _ target => some target
  | _ => none

/-- What is left of a command: the shelf may have moved, and at most one constructor has run and one
tokenizer been kept, none unless there is a target. -/
structure Builds (w : Workspace) (target? : Option String) (done : Step Reply) : Prop where
  moves : w.shelf.Moves done.workspace.shelf
  signals_eq : ∃ runs events, runs ≤ target?.toList.length ∧
    done.signals = Signal.ofBuilding runs events
  tokenizers_eq : done.workspace.tokenizers = w.tokenizers ∨ ∃ target i, target? = some target ∧
    done.workspace.tokenizers = w.tokenizers.insert target i

variable {w : Workspace} {done : Step Reply} {target : String}

theorem Builds.of_events {target? : Option String} (events : List Event)
    (hmoves : w.shelf.Moves done.workspace.shelf) (hsignals : done.signals = events.map .logged)
    (htokenizers : done.workspace.tokenizers = w.tokenizers) : Builds w target? done where
  moves := hmoves
  signals_eq := ⟨0, events, Nat.zero_le _, hsignals⟩
  tokenizers_eq := .inl htokenizers

theorem Builds.answer (w : Workspace) (target? : Option String) (reply : Reply) :
    Builds w target? (w.answer reply) :=
  .of_events [] (.refl w.shelf) rfl rfl

theorem Builds.tokenizer_eq {target? : Option String} (h : Builds w target? done) {m : String}
    (hother : target? ≠ some m) : done.workspace.tokenizer m = w.tokenizer m := by
  rcases h.tokenizers_eq with hsame | ⟨target, i, htarget, hput⟩
  · rw [Workspace.tokenizer, hsame]
    rfl
  · have hne : target ≠ m := fun heq => hother (htarget.trans (congrArg some heq))
    exact Workspace.tokenizer_eq_of_insert hne hput

theorem tokenizers_resolved {o : Shelf.Outcome Shelf.Resolution}
    (h : RegisteringCommand.resolved w target o = .ok done) :
    done.workspace.tokenizers = w.tokenizers ∨
      ∃ i, done.workspace.tokenizers = w.tokenizers.insert target i := by
  simp only [RegisteringCommand.resolved] at h
  split at h
  next => cases h; exact .inl rfl
  next i _ => cases h; exact .inr ⟨i, rfl⟩
  next => cases h; exact .inl rfl
  next => cases h

theorem signals_resolved {o : Shelf.Outcome Shelf.Resolution}
    (h : RegisteringCommand.resolved w target o = .ok done) : done.signals = o.signals := by
  simp only [RegisteringCommand.resolved] at h
  split at h <;> cases h <;> rfl

theorem builds_resolved {o : Shelf.Outcome Shelf.Resolution} {id : Nat} {key : String}
    (hshelf : o.shelf = (w.shelf.resolve id key).shelf)
    (hsignals : o.signals = (w.shelf.resolve id key).signals)
    (h : RegisteringCommand.resolved w target o = .ok done) : Builds w (some target) done := by
  obtain ⟨changes, hchanges, -⟩ := w.shelf.resolve_shelf id key
  constructor
  · rw [shelf_resolved h, hshelf, hchanges]
    exact .changeAll changes
  · rw [signals_resolved h, hsignals]
    exact w.shelf.resolve_signals id key
  · rcases tokenizers_resolved h with hsame | ⟨i, hput⟩
    · exact .inl hsame
    · exact .inr ⟨target, i, rfl, hput⟩

theorem builds_constructed {recipe : Recipe} {shared : Catalog}
    (h : RegisteringCommand.constructed w target (w.shelf.create recipe shared) = .ok done) :
    Builds w (some target) done := by
  have hmoves : w.shelf.Moves (w.shelf.create recipe shared).shelf := by
    rw [Shelf.create_shelf]
    exact .changeAll _
  have hsignals : ∃ runs events, runs ≤ 1 ∧
      (w.shelf.create recipe shared).signals = Signal.ofBuilding runs events :=
    ⟨_, _, recipe.runs_le_one shared, w.shelf.create_signals recipe shared⟩
  simp only [RegisteringCommand.constructed] at h
  split at h
  next i _ =>
    cases h
    exact ⟨hmoves, hsignals, .inr ⟨target, i, rfl, rfl⟩⟩
  next =>
    cases h
    exact ⟨hmoves, hsignals, .inl rfl⟩
  next => cases h

theorem builds_registerAt {name : String} {id : Nat} {e : Entry} {target? : Option String}
    (h : RegisteringCommand.registerAt w name id e = .ok done) : Builds w target? done := by
  obtain ⟨r, -, rfl⟩ := registerAt_eq_ok_iff.1 h
  exact .of_events [_] (.changeAll [(id, .put e)]) rfl rfl

theorem builds_registering {command : RegisteringCommand}
    (hstep : step w (.registering command) = .ok done) : Builds w command.target? done := by
  cases command with
  | define target c =>
    obtain rfl := Except.ok.inj hstep
    exact .of_events [] (.define target c) rfl rfl
  | build target source drafts =>
    cases source with
    | none | some =>
      obtain ⟨c, -, hstep⟩ := bind_eq_ok_iff.1 hstep
      obtain ⟨entries, -, hstep⟩ := bind_eq_ok_iff.1 hstep
      obtain rfl := pure_eq_ok_iff.1 hstep
      exact .of_events [_] (.add target _) rfl rfl
  | buildDefault target =>
    obtain rfl := Except.ok.inj hstep
    exact .of_events [_] (.add target .default) rfl rfl
  | current target =>
    obtain ⟨reply, -, hstep⟩ := bind_eq_ok_iff.1 hstep
    obtain rfl := pure_eq_ok_iff.1 hstep
    exact .of_events [] (.hold target) rfl rfl
  | setCurrent name =>
    obtain ⟨id, hid, hstep⟩ := bind_eq_ok_iff.1 hstep
    obtain ⟨reply, -, hstep⟩ := bind_eq_ok_iff.1 hstep
    obtain rfl := pure_eq_ok_iff.1 hstep
    exact .of_events [] (.replaceCurrent (Workspace.handle_eq_ok_iff.1 hid)) rfl rfl
  | register name key draft =>
    obtain ⟨id, -, hstep⟩ := bind_eq_ok_iff.1 hstep
    obtain ⟨recipe, -, hstep⟩ := bind_eq_ok_iff.1 hstep
    exact builds_registerAt hstep
  | reuse name key newKey =>
    obtain ⟨r, -, hstep⟩ := bind_eq_ok_iff.1 hstep
    split at hstep
    · obtain ⟨id, -, hstep⟩ := bind_eq_ok_iff.1 hstep
      exact builds_registerAt hstep
    · obtain rfl := pure_eq_ok_iff.1 hstep
      exact .answer w _ _
  | unregister name key =>
    obtain ⟨id, -, hstep⟩ := bind_eq_ok_iff.1 hstep
    obtain ⟨r, -, hstep⟩ := bind_eq_ok_iff.1 hstep
    obtain rfl := pure_eq_ok_iff.1 hstep
    exact .of_events [] (.changeAll [(id, .drop key)]) rfl rfl
  | entry | contains | keys | inspectRegistry | inspectCatalog | inspectEntry | catalog =>
    obtain ⟨_, -, hstep⟩ := bind_eq_ok_iff.1 hstep
    obtain rfl := pure_eq_ok_iff.1 hstep
    exact .answer w _ _
  | resolve name key target =>
    obtain ⟨id, -, hstep⟩ := bind_eq_ok_iff.1 hstep
    exact builds_resolved rfl rfl hstep
  | tokenizer name key target =>
    obtain ⟨id, -, hstep⟩ := bind_eq_ok_iff.1 hstep
    exact builds_resolved (w.shelf.tokenizer_shelf id key) (w.shelf.tokenizer_signals id key) hstep
  | create draft name target =>
    obtain ⟨recipe, -, hstep⟩ := bind_eq_ok_iff.1 hstep
    obtain ⟨c, -, hstep⟩ := bind_eq_ok_iff.1 hstep
    exact builds_constructed hstep
  | load typeName source target =>
    obtain ⟨c, -, hstep⟩ := bind_eq_ok_iff.1 hstep
    exact builds_constructed hstep

end Session
end Linewise
