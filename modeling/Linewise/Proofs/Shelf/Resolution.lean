import Linewise.Proofs.Shelf.Changes

/-! What comes of asking for a tokenizer: the answer, the shelf after it and what is signalled. All of it
goes by the entry from before the constructor ran, even if the constructor has replaced that entry. -/
namespace Linewise

/-- What an entry in the log says, apart from its message. -/
def Event.record (event : Event) : Level × List (String × String) := (event.level, event.fields)

def Change.event? : Change → Option Event
  | .put e => some (.registering e.key e.recipe.form)
  | .drop _ => none

namespace Constructor

/-- How many runs of the constructor can be noticed. Those of a builtin one cannot. -/
def runs : Constructor → Nat
  | .builtin _ => 0
  | .scripted _ _ => 1

def ending : Constructor → Construction
  | .builtin tokenizer => .made tokenizer
  | .scripted _ ending => ending

end Constructor

namespace Recipe

def runs (shared : Catalog) (recipe : Recipe) : Nat :=
  match recipe.constructor shared with
  | .ok constructor => constructor.runs
  | .error _ => 0

/-- What the recipe comes to. A type that no catalog has is an error like that of a constructor. -/
def ending (shared : Catalog) (recipe : Recipe) : Construction :=
  match recipe.constructor shared with
  | .ok constructor => constructor.ending
  | .error error => .refused error

end Recipe

namespace Shelf

/-- What is answered to whoever asks for `key`, without and with a plain tokenizer to fall back on, and
what is put on record of it. -/
inductive Answers (key : String) :
    Construction → Resolution → Resolution → List (Level × List (String × String)) → Prop
  | made (tokenizer : Instance) :
    Answers key (.made tokenizer) (.made tokenizer) (.made tokenizer)
      [(.debug, [("key", key), ("tokenizer", tokenizer.name)])]
  | unavailable (error : BuildError)
      (cause : error.cause = .notFound ∨ error.cause = .notConstructible ∨ error.cause = .denied) :
    Answers key (.refused error) .absent (.made (.plain .new))
      [(.warn, [("key", key), ("kind", error.cause.text), ("error", error.display)])]
  | failed (error : BuildError)
      (cause : error.cause = .resourceExhausted ∨ error.cause = .invariantViolated) :
    Answers key (.refused error) (.failed error) (.failed error)
      [(.error, [("key", key), ("kind", error.cause.text), ("error", error.display)])]
  | raised (message : String) :
    Answers key (.raised message) (.raised message) (.raised message) []

def Resolution.orPlain : Resolution → Resolution
  | .absent => .made (.plain .new)
  | answer => answer

theorem exists_settle_eq (key : String) (ending : Construction) :
    ∃ (answer : Resolution) (events : List Event), settle key ending = (answer, events.map .logged) ∧
      Answers key ending answer answer.orPlain (events.map Event.record) := by
  cases ending with
  | made tokenizer => exact ⟨_, [.resolved key tokenizer.name], rfl, .made tokenizer⟩
  | raised message => exact ⟨_, [], rfl, .raised message⟩
  | refused error =>
    obtain ⟨cause, message⟩ := error
    have hsoft := @Answers.unavailable key ⟨cause, message⟩
    have hfatal := @Answers.failed key ⟨cause, message⟩
    cases cause with
    | notFound => exact ⟨_, [.unavailable key _], rfl, hsoft (.inl rfl)⟩
    | notConstructible => exact ⟨_, [.unavailable key _], rfl, hsoft (.inr (.inl rfl))⟩
    | denied => exact ⟨_, [.unavailable key _], rfl, hsoft (.inr (.inr rfl))⟩
    | resourceExhausted => exact ⟨_, [.failed key _], rfl, hfatal (.inl rfl)⟩
    | invariantViolated => exact ⟨_, [.failed key _], rfl, hfatal (.inr rfl)⟩

variable {s : Shelf} {id : Nat}

theorem tokenizer_eq (s : Shelf) (id : Nat) (key : String) :
    s.tokenizer id key = { s.resolve id key with result := (s.resolve id key).result.orPlain } := by
  unfold tokenizer
  rcases s.resolve id key with ⟨result, shelf, signals⟩
  cases result <;> rfl

def changeEvents (changes : List (Nat × Change)) : List Event :=
  changes.filterMap fun p => p.2.event?

theorem changeEvents_append (changes later : List (Nat × Change)) :
    changeEvents (changes ++ later) = changeEvents changes ++ changeEvents later :=
  List.filterMap_append

theorem apply_signals (s : Shelf) (edit : Edit) :
    (s.apply edit).2 = (changeEvents (edit.change? s).toList).map .logged := by
  cases edit with
  | register name key draft =>
    simp only [apply, Edit.change?]
    cases s.handle? name <;> cases s.recipe draft <;> rfl
  | unregister name key =>
    simp only [apply, Edit.change?]
    cases s.handle? name <;> rfl

theorem applyAll_signals (s : Shelf) (edits : List Edit) :
    (s.applyAll edits).2 =
      (changeEvents (edits.filterMap fun edit => edit.change? s)).map .logged := by
  induction edits generalizing s with
  | nil => rfl
  | cons edit edits ih =>
    have hsame (later : Edit) : later.change? (s.apply edit).1 = later.change? s := by
      rw [apply_shelf]
      exact Edit.change?_congr (handles_changeAll s _) (catalogs_changeAll s _) later
    show (s.apply edit).2 ++ ((s.apply edit).1.applyAll edits).2 = _
    simp only [ih, hsame, apply_signals]
    rw [← List.map_append, ← changeEvents_append, List.filterMap_cons]
    cases edit.change? s <;> rfl

/-- What comes of a run of the constructor: how it ends, with its changes made and put on record. -/
def outcome (s : Shelf) (constructor : Constructor) : Outcome Construction :=
  ⟨constructor.ending, s.changeAll (constructor.changes s),
    List.replicate constructor.runs .constructed ++
      (changeEvents (constructor.changes s)).map .logged⟩

theorem construct_eq (s : Shelf) (constructor : Constructor) :
    s.construct constructor = s.outcome constructor := by
  cases constructor with
  | builtin tokenizer => rfl
  | scripted edits ending =>
    show Outcome.mk ending (s.applyAll edits).1 (.constructed :: (s.applyAll edits).2) = _
    rw [applyAll_shelf, applyAll_signals]
    rfl

/-- To follow a recipe is to run its constructor once and to make the changes of that one. -/
theorem create_eq (s : Shelf) (recipe : Recipe) (shared : Catalog) :
    s.create recipe shared = ⟨recipe.ending shared, s.changeAll (recipe.changes s shared),
      List.replicate (recipe.runs shared) .constructed ++
        (changeEvents (recipe.changes s shared)).map .logged⟩ := by
  unfold create Recipe.ending Recipe.runs Recipe.changes
  cases recipe.constructor shared with
  | error error => rfl
  | ok constructor => exact construct_eq s constructor

theorem resolve_eq {r : Registry} (hr : s.registry? id = some r) {key : String} {e : Entry}
    (he : r.find? key = some e) :
    s.resolve id key =
      let built := s.create e.recipe r.catalog
      ⟨(settle key built.result).1, built.shelf, built.signals ++ (settle key built.result).2⟩ := by
  unfold resolve
  simp only [hr, he]

/-- What a registry is asked for is made by the entry that it has for the key at the time, once and with
all that this does to the shelf. Without an entry there is nothing to be made, nor signalled. -/
theorem resolve_answers {r : Registry} (hr : s.registry? id = some r) (key : String) :
    (r.find? key = none → s.resolve id key = ⟨.absent, s, []⟩ ∧
      s.tokenizer id key = ⟨.made (.plain .new), s, []⟩) ∧
    ∀ e, r.find? key = some e →
      let changes := e.recipe.changes s r.catalog
      let after := s.changeAll changes
      ∃ answer fallback events,
        Answers key (e.recipe.ending r.catalog) answer fallback (events.map Event.record) ∧
        (let signals := List.replicate (e.recipe.runs r.catalog) .constructed ++
          (changeEvents changes ++ events).map .logged
        s.resolve id key = ⟨answer, after, signals⟩ ∧
          s.tokenizer id key = ⟨fallback, after, signals⟩) ∧
        after.handles = s.handles ∧ after.catalogs = s.catalogs ∧ after.current = s.current ∧
        (∀ other, after.registry? other =
          (s.registry? other).map fun r => r.after (changesAt other changes)) ∧
        ∀ {other : Nat} {earlier : Registry}, s.registry? other = some earlier →
          ∃ later, after.registry? other = some later ∧
            earlier.Becomes (changesAt other changes) later := by
  constructor
  · intro hnone
    have hresolve : s.resolve id key = ⟨.absent, s, []⟩ := by
      simp only [resolve, hr, hnone]
    rw [tokenizer_eq, hresolve]
    exact ⟨rfl, rfl⟩
  · intro e he changes after
    obtain ⟨answer, events, hsettle, hanswers⟩ := exists_settle_eq key (e.recipe.ending r.catalog)
    refine ⟨answer, answer.orPlain, events, hanswers, ?_, handles_changeAll s changes,
      catalogs_changeAll s changes, current_changeAll s changes, registry?_changeAll s changes,
      fun hearlier => becomes_changeAll hearlier changes⟩
    intro signals
    have hresolve : s.resolve id key = ⟨answer, after, signals⟩ := by
      simp only [resolve_eq hr he, create_eq, hsettle, signals, List.map_append, List.append_assoc]
      rfl
    rw [tokenizer_eq, hresolve]
    exact ⟨rfl, rfl⟩

/-- A constructor removes a key, puts another recipe in the place of its own and then refuses. The answer
is that there is no tokenizer, the other recipe stays and the key stays away. -/
theorem resolve_answers_replaced :
    let edits : List Edit := [.unregister "own" "gone", .unregister "own" "key",
      .register "own" "key" (.named "PlainTokenizer")]
    let e : Entry := ⟨"key", .factory (.scripted edits (.refused ⟨.denied, "disabled"⟩))⟩
    let r := ((Registry.empty .builtins).insert ⟨"gone", .named "PlainTokenizer"⟩).insert e
    let s := initial.add "own" r
    registry? s 1 = some r ∧ r.find? "key" = some e ∧ (r.find? "gone").isSome ∧
      (s.resolve 1 "key").result = .absent ∧ (s.tokenizer 1 "key").result = .made (.plain .new) ∧
      (Signal.log (s.resolve 1 "key").signals).map Event.record =
        [(.debug, [("key", "key"), ("creator", "named")]),
          (.warn, [("key", "key"), ("kind", "denied"),
            ("error", "tokenizer construction failed (denied): disabled")])] ∧
      ∃ r', registry? (s.resolve 1 "key").shelf 1 = some r' ∧
        r'.find? "key" = some ⟨"key", .named "PlainTokenizer"⟩ ∧ r'.find? "gone" = none := by
  intro edits e r s
  have hr : registry? s 1 = some r := registry?_add initial "own" r
  have he : r.find? "key" = some e := by simp [r, e]
  have hgone : (r.find? "gone").isSome := by simp [r, e]
  have hown : s.handle? "own" = some 1 := handle?_add initial "own" r
  have hchanges : e.recipe.changes s r.catalog =
      [(1, .drop "gone"), (1, .drop "key"), (1, .put ⟨"key", .named "PlainTokenizer"⟩)] := by
    show edits.filterMap (fun edit => edit.change? s) = _
    simp only [edits, List.filterMap_cons, List.filterMap_nil, Edit.change?, hown]
    rfl
  have hending : e.recipe.ending r.catalog = .refused ⟨.denied, "disabled"⟩ := rfl
  obtain ⟨answer, fallback, events, hanswers, ⟨hresolve, htokenizer⟩, -, -, -, -, hregistries⟩ :=
    (resolve_answers hr "key").2 e he
  rw [hchanges] at hresolve htokenizer hregistries
  rw [hresolve, htokenizer]
  rw [hending] at hanswers
  generalize hlog : events.map Event.record = log at hanswers
  cases hanswers with
  | failed _ cause => simp at cause
  | unavailable =>
    obtain ⟨r', hr', hbecomes⟩ := hregistries hr
    have hput : r.Becomes
        ([.drop "gone", .drop "key"] ++ [.put ⟨"key", .named "PlainTokenizer"⟩]) r' := hbecomes
    have hdrop : r.Becomes
        ([] ++ .drop "gone" :: [.drop "key", .put ⟨"key", .named "PlainTokenizer"⟩]) r' := hbecomes
    refine ⟨hr, he, hgone, rfl, rfl, ?_, r', hr', hput.find?_put (by simp), ?_⟩
    · have hlogged (events : List Event) : Signal.log (events.map .logged) = events := by
        simp [Signal.log, List.filterMap_map]
      rw [Signal.log_append, hlogged, List.map_append, List.map_append, hlog]
      rfl
    · exact hdrop.find?_drop (by simp [Change.key])

end Shelf
end Linewise
