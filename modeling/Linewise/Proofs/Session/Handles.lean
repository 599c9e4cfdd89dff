import Linewise.Proofs.Session.Sound

/-! Registries in the hands of many. What is done to a registry through one of its names shows under all
of them, whenever they were taken, and nowhere else; and each registry that was current comes back
exactly once, when another takes its place. -/
namespace Linewise

namespace Shelf

variable (s : Shelf) (id other : Nat) (target name : String) (c : Change)

@[simp] theorem current_hold : (s.hold target id).current = s.current := rfl

@[simp] theorem registry?_hold : registry? (s.hold target id) other = s.registry? other := rfl

theorem handle?_hold :
    (s.hold target id).handle? name = if target = name then some id else s.handle? name := by
  simp [hold, handle?, Std.TreeMap.getElem?_insert]

@[simp] theorem current_replaceCurrent : (s.replaceCurrent id).2.current = id := rfl

@[simp] theorem handle?_replaceCurrent : (s.replaceCurrent id).2.handle? name = s.handle? name := rfl

@[simp] theorem registry?_replaceCurrent :
    registry? (s.replaceCurrent id).2 other = s.registry? other := rfl

@[simp] theorem current_change : (s.change id c).current = s.current := rfl

@[simp] theorem handle?_change : (s.change id c).handle? name = s.handle? name := rfl

end Shelf

namespace Session

inductive Handling where
  | current (target : String)
  | setCurrent (name : String)
  | edit (edit : Edit)

def Handling.command : Handling → Command
  | .current target => .registering (.current target)
  | .setCurrent name => .registering (.setCurrent name)
  | .edit (.register name key draft) => .registering (.register name key draft)
  | .edit (.unregister name key) => .registering (.unregister name key)

/-- What was done, with the positions of the registries in place of their names. -/
inductive Deed where
  | took (target : String) (id : Nat)
  | replaced (previous id : Nat)
  | changed (id : Nat) (c : Change)

namespace Deed

def returned? : Deed → Option Nat
  | .replaced previous _ => some previous
  | .took _ _ | .changed _ _ => none

def installed? : Deed → Option Nat
  | .replaced _ id => some id
  | .took _ _ | .changed _ _ => none

def held? (name : String) : Deed → Option Nat
  | .took target id => if target = name then some id else none
  | .replaced _ _ | .changed _ _ => none

def change? : Deed → Option (Nat × Change)
  | .changed id c => some (id, c)
  | .took _ _ | .replaced _ _ => none

end Deed

def contents (s : Shelf) (deeds : List Deed) (id : Nat) : Option Registry :=
  (s.registry? id).map fun r => r.after (changesAt id (deeds.filterMap Deed.change?))

/-- `r` is the registry at `id` after the deeds, and has what these put there last, or what it had. -/
def Shows (s : Shelf) (deeds : List Deed) (id : Nat) (r : Registry) : Prop :=
  contents s deeds id = some r ∧ ∃ first, s.registry? id = some first ∧
    first.Becomes (changesAt id (deeds.filterMap Deed.change?)) r

theorem shows_of_contents {s : Shelf} {deeds : List Deed} {id : Nat} {r : Registry}
    (h : contents s deeds id = some r) : Shows s deeds id r := by
  refine ⟨h, ?_⟩
  obtain ⟨first, hfirst, rfl⟩ := Option.map_eq_some_iff.1 h
  exact ⟨first, hfirst, first.becomes_after _⟩

/-- The registry that was made current last. -/
def lastInstalled (s : Shelf) (deeds : List Deed) : Nat :=
  (deeds.filterMap Deed.installed?).getLastD s.current

/-- The reply shows the registry that is meant as it is after the deeds before, or with this one if it is
a registration. -/
def Deed.Agrees (s : Shelf) (before : List Deed) (reply : Reply) : Deed → Prop
  | .took _ id => id = lastInstalled s before ∧ ∃ r, Shows s before id r ∧ reply = .registry r
  | .replaced previous _ => ∃ r, Shows s before previous r ∧ reply = .registry r
  | .changed id (.put e) => ∃ r, Shows s (before ++ [.changed id (.put e)]) id r ∧ reply = .registry r
  | .changed id (.drop key) => ∃ r, Shows s before id r ∧
      reply = RegisteringCommand.orNothing (r.find? key)

/-- What has become of the shelf `s`: `s'` has the registry that was made current last, the registries
that came back and the current one are the first and all that were made current, each name stands for
what it was last given, and each registry has undergone its own changes. -/
structure Since (s : Shelf) (deeds : List Deed) (s' : Shelf) : Prop where
  current_eq : s'.current = lastInstalled s deeds
  exchange_eq : deeds.filterMap Deed.returned? ++ [s'.current] =
    s.current :: deeds.filterMap Deed.installed?
  handle?_eq : ∀ name,
    s'.handle? name = ((deeds.filterMap (Deed.held? name)).getLast?).or (s.handle? name)
  registry?_eq : ∀ id, s'.registry? id = contents s deeds id
  catalogs_eq : s'.catalogs = s.catalogs

namespace Since

variable {s s' : Shelf} {deeds : List Deed}

theorem shows (h : Since s deeds s') {id : Nat} {r : Registry} (hr : s'.registry? id = some r) :
    Shows s deeds id r :=
  shows_of_contents ((h.registry?_eq id).symm.trans hr)

theorem exists_shows (h : Since s deeds s') {id : Nat} (hid : id < s'.registries.length) :
    ∃ r, s'.registry? id = some r ∧ Shows s deeds id r := by
  obtain ⟨r, hr⟩ := Shelf.Sound.exists_registry hid
  exact ⟨r, hr, h.shows hr⟩

theorem refl (s : Shelf) : Since s [] s := by
  refine ⟨rfl, rfl, fun name => rfl, fun id => ?_, rfl⟩
  simp [contents, changesAt]

theorem took (h : Since s deeds s') (target : String) :
    Since s (deeds ++ [.took target s'.current]) (s'.hold target s'.current) := by
  refine ⟨?_, ?_, fun name => ?_, fun id => ?_, h.catalogs_eq⟩
  · simpa [lastInstalled, List.filterMap_cons, Deed.installed?] using h.current_eq
  · simpa [List.filterMap_cons, Deed.installed?, Deed.returned?] using h.exchange_eq
  · rw [Shelf.handle?_hold]
    split_ifs with hname
    · simp [Deed.held?, hname]
    · simpa [List.filterMap_cons, Deed.held?, hname] using h.handle?_eq name
  · simpa [contents, List.filterMap_cons, Deed.change?] using h.registry?_eq id

theorem replaced (h : Since s deeds s') (id : Nat) :
    Since s (deeds ++ [.replaced s'.current id]) (s'.replaceCurrent id).2 := by
  refine ⟨?_, ?_, fun name => ?_, fun other => ?_, h.catalogs_eq⟩
  · simp [lastInstalled, Deed.installed?]
  · have hnext := congrArg (· ++ [id]) h.exchange_eq
    simpa [List.filterMap_cons, Deed.installed?, Deed.returned?] using hnext
  · simpa [List.filterMap_cons, Deed.held?] using h.handle?_eq name
  · simpa [contents, List.filterMap_cons, Deed.change?] using h.registry?_eq other

theorem changed (h : Since s deeds s') (id : Nat) (c : Change) :
    Since s (deeds ++ [.changed id c]) (s'.change id c) := by
  refine ⟨?_, ?_, fun name => ?_, fun other => ?_, h.catalogs_eq⟩
  · simpa [lastInstalled, List.filterMap_cons, Deed.installed?] using h.current_eq
  · simpa [List.filterMap_cons, Deed.installed?, Deed.returned?] using h.exchange_eq
  · simpa [List.filterMap_cons, Deed.held?] using h.handle?_eq name
  · have hchanges : (deeds ++ [Deed.changed id c]).filterMap Deed.change? =
        deeds.filterMap Deed.change? ++ [(id, c)] := by
      simp [Deed.change?]
    rw [Shelf.registry?_change, h.registry?_eq, contents, contents, hchanges, changesAt_append,
      changesAt_cons]
    split_ifs with hid
    · simp only [Registry.after_append, Option.map_map]
      rfl
    · simp [changesAt]

end Since

/-- What the handling comes to, if the names in it stand for anything. -/
def Handling.deed? (s : Shelf) : Handling → Option Deed
  | .current target => some (.took target s.current)
  | .setCurrent name => (s.handle? name).map fun id => .replaced (s.replaceCurrent id).1 id
  | .edit e => (e.change? s).map fun p => .changed p.1 p.2

/-- The deeds of a session up to the first command that gets no answer. -/
def deedsOf (w : Workspace) : List Handling → List Deed
  | [] => []
  | handling :: rest =>
    match step w handling.command with
    | .ok done => (handling.deed? w.shelf).toList ++ deedsOf done.workspace rest
    | .error _ => []

/-- A name in it stands for nothing. -/
def Handling.Lacks (s : Shelf) : Handling → Prop
  | .current _ => False
  | .setCurrent name | .edit (.unregister name _) => s.handle? name = none
  | .edit (.register name _ draft) =>
    s.handle? name = none ∨ ∃ missing, draft.recipe s.catalogs = .error missing

variable {s : Shelf} {w w' : Workspace} {deeds : List Deed}

/-- Each handling is answered in view of the deeds before it and comes to one more. -/
theorem step_since (h : Since s deeds w.shelf) {handling : Handling} {done : Step Reply}
    (hstep : step w handling.command = .ok done) :
    ∃ deed, handling.deed? w.shelf = some deed ∧ deed.Agrees s deeds done.reply ∧
      Since s (deeds ++ [deed]) done.workspace.shelf := by
  cases handling with
  | current target =>
    obtain ⟨reply, hshow, hstep⟩ := bind_eq_ok_iff.1 hstep
    obtain rfl := pure_eq_ok_iff.1 hstep
    obtain ⟨r, hr, rfl⟩ := showRegistry_eq_ok_iff.1 hshow
    exact ⟨.took target w.shelf.current, rfl, ⟨h.current_eq, r, h.shows hr, rfl⟩, h.took target⟩
  | setCurrent name =>
    obtain ⟨id, hid, hstep⟩ := bind_eq_ok_iff.1 hstep
    obtain ⟨reply, hshow, hstep⟩ := bind_eq_ok_iff.1 hstep
    obtain rfl := pure_eq_ok_iff.1 hstep
    obtain ⟨r, hr, rfl⟩ := showRegistry_eq_ok_iff.1 hshow
    have hid := Workspace.handle_eq_ok_iff.1 hid
    refine ⟨.replaced w.shelf.current id, ?_, ⟨r, h.shows hr, rfl⟩, h.replaced id⟩
    simp [Handling.deed?, hid, Shelf.replaceCurrent]
  | edit e =>
    cases e with
    | register name key draft =>
      obtain ⟨id, hid, hstep⟩ := bind_eq_ok_iff.1 hstep
      obtain ⟨recipe, hrecipe, hstep⟩ := bind_eq_ok_iff.1 hstep
      have hid := Workspace.handle_eq_ok_iff.1 hid
      have hrecipe := Workspace.recipe_eq_ok_iff.1 hrecipe
      obtain ⟨r, hr, rfl⟩ := registerAt_eq_ok_iff.1 hstep
      have hdone := h.changed id (.put ⟨key, recipe⟩)
      have hput : Shelf.registry? (w.shelf.change id (.put ⟨key, recipe⟩)) id =
          some (r.insert ⟨key, recipe⟩) := by
        rw [Shelf.registry?_change, if_pos rfl, hr]
        rfl
      refine ⟨.changed id (.put ⟨key, recipe⟩), ?_, ⟨_, hdone.shows hput, rfl⟩, hdone⟩
      simp [Handling.deed?, Edit.change?, hid, Shelf.recipe, hrecipe]
    | unregister name key =>
      obtain ⟨id, hid, hstep⟩ := bind_eq_ok_iff.1 hstep
      obtain ⟨r, hr, hstep⟩ := bind_eq_ok_iff.1 hstep
      obtain rfl := pure_eq_ok_iff.1 hstep
      have hr := (Workspace.registry_eq_ok_iff_of_handle hid).1 hr
      have hid := Workspace.handle_eq_ok_iff.1 hid
      refine ⟨.changed id (.drop key), ?_, ⟨r, h.shows hr, rfl⟩, h.changed id (.drop key)⟩
      simp [Handling.deed?, Edit.change?, hid]

/-- Nothing but a name that stands for nothing keeps a handling from being answered. -/
theorem step_lacks (hsound : w.shelf.Sound) {handling : Handling} {halt : Halt}
    (hstep : step w handling.command = .error halt) : handling.Lacks w.shelf := by
  cases handling with
  | current target =>
    obtain ⟨r, hr⟩ := Shelf.Sound.exists_registry hsound.current_lt
    cases bind_of_eq_ok (showRegistry_eq_ok_iff.2 ⟨r, hr, rfl⟩) hstep
  | setCurrent name =>
    cases hid : w.shelf.handle? name with
    | none => exact hid
    | some id =>
      have hstep := bind_of_eq_ok (Workspace.handle_eq_ok_iff.2 hid) hstep
      obtain ⟨r, hr⟩ := Shelf.Sound.exists_registry hsound.current_lt
      cases bind_of_eq_ok (showRegistry_eq_ok_iff.2 ⟨r, hr, rfl⟩) hstep
  | edit e =>
    cases e with
    | register name key draft =>
      cases hid : w.shelf.handle? name with
      | none => exact .inl hid
      | some id =>
        have hstep := bind_of_eq_ok (Workspace.handle_eq_ok_iff.2 hid) hstep
        cases hrecipe : w.recipe draft with
        | error missing =>
          obtain ⟨missing, hmissing, -⟩ := Workspace.recipe_eq_error hrecipe
          exact .inr ⟨missing, hmissing⟩
        | ok recipe =>
          have hstep := bind_of_eq_ok hrecipe hstep
          obtain ⟨r, hr⟩ := Shelf.Sound.exists_registry (hsound.handle_lt hid)
          cases (registerAt_eq_ok_iff.2 ⟨r, hr, rfl⟩).symm.trans hstep
    | unregister name key =>
      cases hid : w.shelf.handle? name with
      | none => exact hid
      | some id =>
        have hstep := bind_of_eq_ok (Workspace.handle_eq_ok_iff.2 hid) hstep
        obtain ⟨r, hr⟩ := Shelf.Sound.exists_registry (hsound.handle_lt hid)
        cases bind_of_eq_ok (Workspace.registry_eq_ok_iff.2 ⟨id, hid, hr⟩) hstep

/-- Names are only ever added, so that a name that stands for nothing never did. -/
theorem Handling.Lacks.of_since {s' : Shelf} (h : Since s deeds s') {handling : Handling}
    (hlacks : handling.Lacks s') : handling.Lacks s := by
  have hnone {name : String} (hname : s'.handle? name = none) : s.handle? name = none := by
    rw [h.handle?_eq, Option.or_eq_none_iff] at hname
    exact hname.2
  cases handling with
  | current target => exact hlacks
  | setCurrent name => exact hnone hlacks
  | edit e =>
    cases e with
    | register name key draft => exact hlacks.imp hnone fun hmissing => h.catalogs_eq ▸ hmissing
    | unregister name key => exact hnone hlacks

/-- The run: every answer, and what the shelf has come to, follow from the deeds. -/
theorem run_since {handlings : List Handling} {replies : List (Reply × List Signal)}
    {result : Except Halt Workspace} (h : Since s deeds w.shelf) (hsound : w.shelf.Sound)
    (hrun : run w (handlings.map Handling.command) = (replies, result)) :
    (deedsOf w handlings).length = replies.length ∧
    (∀ {n : Nat} {deed : Deed} {answer : Reply × List Signal}, (deedsOf w handlings)[n]? = some deed →
      replies[n]? = some answer → deed.Agrees s (deeds ++ (deedsOf w handlings).take n) answer.1) ∧
    (∀ {halt : Halt}, result = .error halt → ∃ handling ∈ handlings, handling.Lacks s) ∧
    ∀ {w' : Workspace}, result = .ok w' → Since s (deeds ++ deedsOf w handlings) w'.shelf := by
  induction handlings generalizing w deeds replies with
  | nil =>
    obtain ⟨rfl, rfl⟩ := Prod.mk.inj hrun
    refine ⟨rfl, fun hn => by simp [deedsOf] at hn, fun hhalt => (by cases hhalt), fun hw' => ?_⟩
    obtain rfl := Except.ok.inj hw'
    exact (List.append_nil deeds).symm ▸ h
  | cons first rest ih =>
    rw [List.map_cons] at hrun
    cases hstep : step w first.command with
    | error halt =>
      rw [run_cons_of_error hstep] at hrun
      obtain ⟨rfl, rfl⟩ := Prod.mk.inj hrun
      have hnone : deedsOf w (first :: rest) = [] := by rw [deedsOf, hstep]
      refine ⟨by rw [hnone]; rfl, fun _ hn => by simp at hn, fun _ => ?_, fun hw' => by cases hw'⟩
      exact ⟨first, List.mem_cons_self, (step_lacks hsound hstep).of_since h⟩
    | ok done =>
      rw [run_cons_of_ok hstep] at hrun
      obtain ⟨rfl, hresult⟩ := Prod.mk.inj hrun
      obtain ⟨deed, hdeed, hagrees, hdone⟩ := step_since h hstep
      have hdeeds : deedsOf w (first :: rest) = deed :: deedsOf done.workspace rest := by
        rw [deedsOf, hstep, hdeed]
        rfl
      obtain ⟨hlength, hanswers, hlacks, hend⟩ :=
        ih hdone (step_sound hsound hstep) (Prod.ext rfl hresult)
      rw [hdeeds]
      refine ⟨congrArg Nat.succ hlength, ?_, fun hhalt => ?_, fun hw' => ?_⟩
      · rintro n deed' answer hdeed' hanswer
        cases n with
        | zero =>
          obtain rfl := Option.some.inj hdeed'
          obtain rfl := Option.some.inj hanswer
          simpa using hagrees
        | succ n =>
          have hrest := hanswers hdeed' hanswer
          rwa [List.append_assoc] at hrest
      · obtain ⟨handling, hmem, hlacked⟩ := hlacks hhalt
        exact ⟨handling, List.mem_cons_of_mem first hmem, hlacked⟩
      · have hrest := hend hw'
        rwa [List.append_assoc] at hrest

/-- However registries become current and are changed through names old and new: what is current is what
was made current last, at first the one with the plain tokenizer alone; the registries that came back are
the first one and all that took its place but the last, in order; and every name of a registry shows all
changes of it and no others, as does the current one. Only for lack of a name does anything go
unanswered. -/
theorem run_handled {w : Workspace} (hsound : w.shelf.Sound) {handlings : List Handling}
    {replies : List (Reply × List Signal)} {result : Except Halt Workspace}
    (hrun : run w (handlings.map Handling.command) = (replies, result)) :
    (deedsOf w handlings).length = replies.length ∧
    (∀ {n : Nat} {deed : Deed} {answer : Reply × List Signal}, (deedsOf w handlings)[n]? = some deed →
      replies[n]? = some answer → deed.Agrees w.shelf ((deedsOf w handlings).take n) answer.1) ∧
    (∀ {halt : Halt}, result = .error halt → ∃ handling ∈ handlings, handling.Lacks w.shelf) ∧
    (∀ {w' : Workspace}, result = .ok w' → replies.length = handlings.length ∧
      Since w.shelf (deedsOf w handlings) w'.shelf ∧
      (∃ r, w'.shelf.registry? w'.shelf.current = some r ∧
        Shows w.shelf (deedsOf w handlings) w'.shelf.current r) ∧
      ∀ {name : String} {id : Nat}, w'.handle name = .ok id →
        ∃ r, w'.registry name = .ok r ∧ Shows w.shelf (deedsOf w handlings) id r) ∧
    Shelf.registry? .initial Shelf.initial.current = some .default ∧
    ∀ {key : String} {e : Entry}, Registry.default.find? key = some e ↔
      key = Registry.plainKey ∧ e = ⟨key, .named "PlainTokenizer"⟩ := by
  obtain ⟨hlength, hanswers, hlacks, hend⟩ := run_since (.refl w.shelf) hsound hrun
  refine ⟨hlength, hanswers, hlacks, ?_, rfl, Registry.find?_default_eq_some_iff⟩
  rintro w' rfl
  have hsince : Since w.shelf (deedsOf w handlings) w'.shelf := hend rfl
  have hsound' := run_sound hsound hrun
  refine ⟨by rw [length_run_of_ok hrun, List.length_map], hsince,
    hsince.exists_shows hsound'.current_lt, ?_⟩
  intro name id hid
  obtain ⟨r, hr, hshows⟩ :=
    hsince.exists_shows (hsound'.handle_lt (Workspace.handle_eq_ok_iff.1 hid))
  exact ⟨r, (Workspace.registry_eq_ok_iff_of_handle hid).2 hr, hshows⟩

/-- A registry that was replaced and made current again has what was registered before under a name that
it got later, and another one no longer has what was removed under another of its names. -/
theorem run_handled_returned :
    let w := Workspace.initial.putShelf ((Shelf.initial.add "a" (.empty [])).add "b" (.empty []))
    let handlings : List Handling :=
      [.current "g", .setCurrent "a", .edit (.register "g" "k" (.named "PlainTokenizer")),
        .current "h", .edit (.register "a" "k" (.named "DispatchTokenizer")), .setCurrent "b",
        .edit (.unregister "h" "k"), .setCurrent "g", .setCurrent "g", .current "z"]
    w.shelf.Sound ∧ ∃ replies w', run w (handlings.map Handling.command) = (replies, .ok w') ∧
      Since w.shelf (deedsOf w handlings) w'.shelf ∧ w'.shelf.current = 0 ∧
      (deedsOf w handlings).filterMap Deed.returned? = [0, 1, 2, 0] ∧
      (∃ r, w'.registry "z" = .ok r ∧ r.find? "k" = some ⟨"k", .named "PlainTokenizer"⟩) ∧
      ∃ r, w'.registry "a" = .ok r ∧ r.find? "k" = none := by
  intro w handlings
  have hsound : w.shelf.Sound := (Shelf.sound_initial.add "a" (.empty [])).add "b" (.empty [])
  have hok : (run w (handlings.map Handling.command)).2.isOk = true := by decide +kernel
  have hdeeds : deedsOf w handlings = [.took "g" 0, .replaced 0 1,
      .changed 0 (.put ⟨"k", .named "PlainTokenizer"⟩), .took "h" 1,
      .changed 1 (.put ⟨"k", .named "DispatchTokenizer"⟩), .replaced 1 2, .changed 1 (.drop "k"),
      .replaced 2 0, .replaced 0 0, .took "z" 0] := rfl
  refine ⟨hsound, ?_⟩
  rcases hrun : run w (handlings.map Handling.command) with ⟨replies, halt | w'⟩
  · rw [hrun] at hok
    cases hok
  · obtain ⟨-, -, -, hend, -⟩ := run_handled hsound hrun
    obtain ⟨-, hsince, -, hnames⟩ := hend rfl
    rw [hdeeds] at hsince hnames ⊢
    have hz : w'.handle "z" = .ok 0 := Workspace.handle_eq_ok_iff.2 (hsince.handle?_eq "z")
    have ha : w'.handle "a" = .ok 1 :=
      Workspace.handle_eq_ok_iff.2 ((hsince.handle?_eq "a").trans (by decide +kernel))
    obtain ⟨r, hr, -, first, -, hfirst⟩ := hnames hz
    obtain ⟨r', hr', -, second, -, hsecond⟩ := hnames ha
    change first.Becomes ([] ++ [.put ⟨"k", .named "PlainTokenizer"⟩]) r at hfirst
    change second.Becomes ([.put ⟨"k", .named "DispatchTokenizer"⟩] ++ [.drop "k"]) r' at hsecond
    exact ⟨replies, w', rfl, hsince, hsince.current_eq, rfl, ⟨r, hr, hfirst.find?_put (by simp)⟩,
      r', hr', hsecond.find?_drop (by simp)⟩

end Session
end Linewise
