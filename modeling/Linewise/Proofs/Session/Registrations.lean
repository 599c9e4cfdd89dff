import Linewise.Grammar.Parens
import Linewise.Proofs.Session.Runs

/-! A registry over a whole session. Each answer about a registry that the session has built is what the
registrations and removals up to then say, and it makes no difference whether an entry was there from
the start or was registered later. -/
namespace Linewise

namespace Workspace

def Spares (w : Workspace) (name : String) (recipe : Recipe) : Prop :=
  ∀ {id : Nat} {r : Registry}, w.handle name = .ok id → w.registry name = .ok r →
    recipe.Spares w.shelf id r.catalog

end Workspace

namespace Session

/-- What can be asked of a registry and done with it. -/
inductive Access where
  | register (key : String) (draft : Draft)
  | unregister (key : String)
  | entry (key : String)
  | contains (key : String)
  | keys
  | resolve (key target : String)
  | tokenizer (key target : String)

namespace Access

def command (name : String) : Access → Command
  | .register key draft => .registering (.register name key draft)
  | .unregister key => .registering (.unregister name key)
  | .entry key => .registering (.entry name key)
  | .contains key => .registering (.contains name key)
  | .keys => .registering (.keys name)
  | .resolve key target => .registering (.resolve name key target)
  | .tokenizer key target => .registering (.tokenizer name key target)

def change? (catalogs : Std.TreeMap String Catalog) : Access → Option Change
  | .register key draft =>
    match draft.recipe catalogs with
    | .ok recipe => some (.put ⟨key, recipe⟩)
    | .error _ => none
  | .unregister key => some (.drop key)
  | .entry _ | .contains _ | .keys | .resolve _ _ | .tokenizer _ _ => none

/-- The ways not to get a reply: the draft names a catalog that is not there, or a constructor raises. -/
def Fails (catalogs : Std.TreeMap String Catalog) (halt : Halt) : Access → Prop
  | .register _ draft => ∃ missing, draft.recipe catalogs = .error missing ∧ halt = .missing missing
  | .resolve _ _ | .tokenizer _ _ => ∃ message, halt = .fault (.raised message)
  | .unregister _ | .entry _ | .contains _ | .keys => False

end Access

/-- The changes that the accesses make, in order. -/
def changesOf (catalogs : Std.TreeMap String Catalog) (accesses : List Access) : List Change :=
  accesses.filterMap (·.change? catalogs)

theorem changesOf_append (catalogs : Std.TreeMap String Catalog) (accesses later : List Access) :
    changesOf catalogs (accesses ++ later) = changesOf catalogs accesses ++ changesOf catalogs later :=
  List.filterMap_append

theorem changesOf_register {catalogs : Std.TreeMap String Catalog} {draft : Draft} {recipe : Recipe}
    (key : String) (h : draft.recipe catalogs = .ok recipe) :
    changesOf catalogs [.register key draft] = [.put ⟨key, recipe⟩] := by
  simp [changesOf, Access.change?, h]

/-- The reply is what the changes so far say, with that of a registration included. Nothing is said of
a tokenizer that is made. -/
def Access.Agrees (catalogs : Std.TreeMap String Catalog) (changes : List Change) (reply : Reply) :
    Access → Prop
  | .register key draft => ∃ r, reply = .registry r ∧
      r.Records (changes ++ changesOf catalogs [.register key draft])
  | .unregister key | .entry key => ∃ found, reply = RegisteringCommand.orNothing found ∧
      ∀ e, found = some e ↔ Latest changes key e
  | .contains key => ∃ found, reply = .truth found ∧ (found = true ↔ ∃ e, Latest changes key e)
  | .keys => ∃ r, reply = .registry r ∧ r.Records changes
  | .resolve _ _ | .tokenizer _ _ => True

def registrations (drafts : List (String × Draft)) : List Access :=
  drafts.map fun (key, draft) => .register key draft

/-- The registry at `id`, which goes by the name, has come about by the changes, while the names and
the catalogs are those of `s`. -/
structure Tracks (s : Shelf) (name : String) (id : Nat) (catalog : Catalog) (changes : List Change)
    (w : Workspace) : Prop where
  handles_eq : w.shelf.handles = s.handles
  catalogs_eq : w.shelf.catalogs = s.catalogs
  handle?_eq : w.shelf.handle? name = some id
  registry?_eq : w.shelf.registry? id = some ((Registry.empty catalog).after changes)

namespace Tracks

variable {s : Shelf} {name : String} {id : Nat} {catalog : Catalog} {changes : List Change}
  {w w' : Workspace}

theorem registry_eq (h : Tracks s name id catalog changes w) :
    w.registry name = .ok ((Registry.empty catalog).after changes) :=
  Workspace.registry_eq_ok_iff.2 ⟨id, h.handle?_eq, h.registry?_eq⟩

/-- The registry undergoes those of the changes that are at its position. -/
theorem changeAll (h : Tracks s name id catalog changes w) {later : List (Nat × Change)}
    (hshelf : w'.shelf = w.shelf.changeAll later) :
    Tracks s name id catalog (changes ++ changesAt id later) w' := by
  refine ⟨?_, ?_, ?_, ?_⟩
  · rw [hshelf, Shelf.handles_changeAll, h.handles_eq]
  · rw [hshelf, Shelf.catalogs_changeAll, h.catalogs_eq]
  · rw [Shelf.handle?, hshelf, Shelf.handles_changeAll]
    exact h.handle?_eq
  · rw [hshelf, Shelf.registry?_changeAll, h.registry?_eq, Registry.after_append]
    rfl

theorem change (h : Tracks s name id catalog changes w) (c : Change) :
    Tracks s name id catalog (changes ++ [c]) (w.putShelf (w.shelf.change id c)) := by
  have hone : changesAt id [(id, c)] = [c] := by simp [changesAt]
  rw [← hone]
  exact h.changeAll rfl

theorem resolve_shelf (h : Tracks s name id catalog changes w)
    (hspares : ∀ e, .put e ∈ changes → e.recipe.Spares s id catalog) (key : String) :
    ∃ later, (w.shelf.resolve id key).shelf = w.shelf.changeAll later ∧ changesAt id later = [] := by
  obtain ⟨later, hshelf, rfl | ⟨r, e, hr, he, rfl⟩⟩ := w.shelf.resolve_shelf id key
  · exact ⟨[], hshelf, rfl⟩
  · obtain rfl := Option.some.inj (h.registry?_eq.symm.trans hr)
    have hlatest := (Registry.records_after catalog changes).find?_iff.1 he
    refine ⟨_, hshelf, changesAt_eq_nil ?_⟩
    rw [Recipe.changes_congr h.handles_eq h.catalogs_eq, Registry.catalog_after]
    exact hspares e hlatest.mem

theorem of_resolved (h : Tracks s name id catalog changes w)
    (hspares : ∀ e, .put e ∈ changes → e.recipe.Spares s id catalog) {key target : String}
    {o : Shelf.Outcome Shelf.Resolution} (ho : o.shelf = (w.shelf.resolve id key).shelf)
    {done : Step Reply} (hdone : RegisteringCommand.resolved w target o = .ok done) :
    Tracks s name id catalog changes done.workspace := by
  obtain ⟨later, hlater, hnone⟩ := h.resolve_shelf hspares key
  have hdone := h.changeAll ((shelf_resolved hdone).trans (ho.trans hlater))
  rwa [hnone, List.append_nil] at hdone

/-- The registry that is asked for a tokenizer is the same afterwards. -/
theorem registry?_resolve (h : Tracks s name id catalog changes w)
    (hspares : ∀ e, .put e ∈ changes → e.recipe.Spares s id catalog) (key : String) :
    Shelf.registry? (w.shelf.resolve id key).shelf id =
      some ((Registry.empty catalog).after changes) := by
  obtain ⟨later, hlater, hnone⟩ := h.resolve_shelf hspares key
  rw [hlater, Shelf.registry?_changeAll, hnone, h.registry?_eq]
  rfl

end Tracks

variable {s : Shelf} {name : String} {id : Nat} {catalog : Catalog} {changes : List Change}
  {w w' : Workspace}

theorem raised_of_resolved {target : String} {o : Shelf.Outcome Shelf.Resolution} {halt : Halt}
    (h : RegisteringCommand.resolved w target o = .error halt) :
    ∃ message, halt = .fault (.raised message) := by
  simp only [RegisteringCommand.resolved] at h
  split at h
  next => cases h
  next => cases h
  next => cases h
  next message _ => exact ⟨message, (Except.error.inj h).symm⟩

/-- Each access is answered by the changes before it, and then it makes its own. -/
theorem step_tracks (h : Tracks s name id catalog changes w)
    (hspares : ∀ e, .put e ∈ changes → e.recipe.Spares s id catalog) {access : Access}
    {done : Step Reply} (hstep : step w (access.command name) = .ok done) :
    access.Agrees s.catalogs changes done.reply ∧
      Tracks s name id catalog (changes ++ changesOf s.catalogs [access]) done.workspace := by
  have hrecords := Registry.records_after catalog changes
  have hhandle := Workspace.handle_eq_ok_iff.2 h.handle?_eq
  have hnothing : changes ++ [] = changes := List.append_nil changes
  cases access with
  | register key draft =>
    have hstep := bind_of_eq_ok hhandle hstep
    obtain ⟨recipe, hrecipe, hstep⟩ := bind_eq_ok_iff.1 hstep
    rw [Workspace.recipe_eq_ok_iff, h.catalogs_eq] at hrecipe
    obtain ⟨r, hr, rfl⟩ := registerAt_eq_ok_iff.1 hstep
    obtain rfl := Option.some.inj (h.registry?_eq.symm.trans hr)
    have hchange := changesOf_register key hrecipe
    have hafter := Registry.records_after catalog (changes ++ [.put ⟨key, recipe⟩])
    rw [Registry.after_append] at hafter
    refine ⟨⟨_, rfl, ?_⟩, ?_⟩
    · rw [hchange]
      exact hafter
    · rw [hchange]
      exact h.change (.put ⟨key, recipe⟩)
  | unregister key =>
    have hstep := bind_of_eq_ok hhandle hstep
    have hstep := bind_of_eq_ok h.registry_eq hstep
    obtain rfl := pure_eq_ok_iff.1 hstep
    exact ⟨⟨_, rfl, fun e => hrecords.find?_iff⟩, h.change (.drop key)⟩
  | entry key =>
    have hstep := bind_of_eq_ok h.registry_eq hstep
    obtain rfl := pure_eq_ok_iff.1 hstep
    exact ⟨⟨_, rfl, fun e => hrecords.find?_iff⟩, hnothing.symm ▸ h⟩
  | contains key =>
    have hstep := bind_of_eq_ok h.registry_eq hstep
    obtain rfl := pure_eq_ok_iff.1 hstep
    exact ⟨⟨_, rfl, hrecords.contains_iff⟩, hnothing.symm ▸ h⟩
  | keys =>
    have hstep := bind_of_eq_ok h.registry_eq hstep
    obtain rfl := pure_eq_ok_iff.1 hstep
    exact ⟨⟨_, rfl, hrecords⟩, hnothing.symm ▸ h⟩
  | resolve key target =>
    have hstep := bind_of_eq_ok hhandle hstep
    exact ⟨trivial, hnothing.symm ▸ h.of_resolved hspares rfl hstep⟩
  | tokenizer key target =>
    have hstep := bind_of_eq_ok hhandle hstep
    have hshelf := w.shelf.tokenizer_shelf id key
    exact ⟨trivial, hnothing.symm ▸ h.of_resolved hspares hshelf hstep⟩

theorem step_fails (h : Tracks s name id catalog changes w) {access : Access} {halt : Halt}
    (hstep : step w (access.command name) = .error halt) : access.Fails s.catalogs halt := by
  have hhandle := Workspace.handle_eq_ok_iff.2 h.handle?_eq
  cases access with
  | register key draft =>
    have hstep := bind_of_eq_ok hhandle hstep
    cases hrecipe : w.recipe draft with
    | error halt' =>
      rw [hrecipe] at hstep
      obtain rfl := Except.error.inj hstep
      rw [← h.catalogs_eq]
      exact Workspace.recipe_eq_error hrecipe
    | ok recipe =>
      have hstep := bind_of_eq_ok hrecipe hstep
      cases (registerAt_eq_ok_iff.2 ⟨_, h.registry?_eq, rfl⟩).symm.trans hstep
  | unregister key =>
    have hstep := bind_of_eq_ok hhandle hstep
    cases bind_of_eq_ok h.registry_eq hstep
  | entry key => cases bind_of_eq_ok h.registry_eq hstep
  | contains key => cases bind_of_eq_ok h.registry_eq hstep
  | keys => cases bind_of_eq_ok h.registry_eq hstep
  | resolve key target =>
    have hstep := bind_of_eq_ok hhandle hstep
    exact raised_of_resolved hstep
  | tokenizer key target =>
    have hstep := bind_of_eq_ok hhandle hstep
    exact raised_of_resolved hstep

/-- The run: the answers follow the history, up to a failure if there is one. -/
theorem run_tracks {accesses : List Access} {replies : List (Reply × List Signal)}
    {result : Except Halt Workspace} (h : Tracks s name id catalog changes w)
    (hspares : ∀ e, .put e ∈ changes ++ changesOf s.catalogs accesses → e.recipe.Spares s id catalog)
    (hrun : run w (accesses.map fun access => access.command name) = (replies, result)) :
    (∀ {n : Nat} {access : Access} {answer : Reply × List Signal}, accesses[n]? = some access →
      replies[n]? = some answer →
        access.Agrees s.catalogs (changes ++ changesOf s.catalogs (accesses.take n)) answer.1) ∧
    (∀ {halt : Halt}, result = .error halt → ∃ access ∈ accesses, access.Fails s.catalogs halt) ∧
    ∀ {w' : Workspace}, result = .ok w' →
      Tracks s name id catalog (changes ++ changesOf s.catalogs accesses) w' := by
  induction accesses generalizing changes w replies with
  | nil =>
    obtain ⟨rfl, rfl⟩ := Prod.mk.inj hrun
    refine ⟨fun hn => by simp at hn, fun hhalt => (by cases hhalt), fun hw' => ?_⟩
    obtain rfl := Except.ok.inj hw'
    exact (List.append_nil changes).symm ▸ h
  | cons first rest ih =>
    have hsplit (later : List Access) : changes ++ changesOf s.catalogs (first :: later) =
        (changes ++ changesOf s.catalogs [first]) ++ changesOf s.catalogs later := by
      rw [← List.singleton_append, changesOf_append, List.append_assoc]
    rw [List.map_cons] at hrun
    cases hstep : step w (first.command name) with
    | error halt =>
      rw [run_cons_of_error hstep] at hrun
      obtain ⟨rfl, rfl⟩ := Prod.mk.inj hrun
      refine ⟨fun _ hn => by simp at hn, fun hhalt => ?_, fun hw' => by cases hw'⟩
      obtain rfl := Except.error.inj hhalt
      exact ⟨first, List.mem_cons_self, step_fails h hstep⟩
    | ok done =>
      rw [run_cons_of_ok hstep] at hrun
      obtain ⟨rfl, hresult⟩ := Prod.mk.inj hrun
      have hbefore : ∀ e, .put e ∈ changes → e.recipe.Spares s id catalog := fun e he =>
        hspares e (List.mem_append_left _ he)
      obtain ⟨hagrees, hdone⟩ := step_tracks h hbefore hstep
      rw [hsplit] at hspares
      obtain ⟨hanswers, hfails, hend⟩ := ih hdone hspares (Prod.ext rfl hresult)
      refine ⟨?_, fun hhalt => ?_, fun hw' => hsplit rest ▸ hend hw'⟩
      · rintro n access answer haccess hanswer
        cases n with
        | zero =>
          obtain rfl := Option.some.inj haccess
          obtain rfl := Option.some.inj hanswer
          exact (List.append_nil changes).symm ▸ hagrees
        | succ n =>
          rw [List.take_succ_cons, hsplit]
          exact hanswers haccess hanswer
      · obtain ⟨access, hmem, hfailed⟩ := hfails hhalt
        exact ⟨access, List.mem_cons_of_mem first hmem, hfailed⟩

abbrev build (name : String) (source : Option String) (drafts : List (String × Draft)) : Command :=
  .registering (.build name source drafts)

def entriesOf (w : Workspace) (drafts : List (String × Draft)) : Except Halt (List Entry) :=
  drafts.mapM fun (key, draft) => return ⟨key, ← w.recipe draft⟩

theorem entriesOf_cons (w : Workspace) (key : String) (draft : Draft)
    (drafts : List (String × Draft)) :
    entriesOf w ((key, draft) :: drafts) = (do
      let recipe ← w.recipe draft
      let rest ← entriesOf w drafts
      return ⟨key, recipe⟩ :: rest) := by
  simp only [entriesOf, List.mapM_cons, bind_assoc, pure_bind]

theorem changesOf_registrations {drafts : List (String × Draft)} {entries : List Entry}
    (h : entriesOf w drafts = .ok entries) :
    changesOf w.shelf.catalogs (registrations drafts) = entries.map .put := by
  induction drafts generalizing entries with
  | nil =>
    obtain rfl := pure_eq_ok_iff.1 h
    rfl
  | cons first drafts ih =>
    obtain ⟨key, draft⟩ := first
    rw [entriesOf_cons] at h
    obtain ⟨recipe, hrecipe, h⟩ := bind_eq_ok_iff.1 h
    obtain ⟨rest, hrest, h⟩ := bind_eq_ok_iff.1 h
    obtain rfl := pure_eq_ok_iff.1 h
    have hchange := changesOf_register key (Workspace.recipe_eq_ok_iff.1 hrecipe)
    rw [registrations, List.map_cons, ← List.singleton_append, changesOf_append, hchange]
    exact congrArg _ (ih hrest)

def catalogOf (w : Workspace) : Option String → Except Halt Catalog
  | some catalog => w.catalog catalog
  | none => pure .builtins

theorem step_build (w : Workspace) (name : String) (source : Option String)
    (drafts : List (String × Draft)) :
    step w (build name source drafts) = (do
      let c ← catalogOf w source
      let entries ← entriesOf w drafts
      return RegisteringCommand.built w name (.ofEntries c entries)) := by
  cases source <;> rfl

theorem build_tracks {source : Option String} {drafts : List (String × Draft)} {done : Step Reply}
    (h : step w (build name source drafts) = .ok done) :
    done.workspace.shelf.catalogs = w.shelf.catalogs ∧
      ∃ c, Tracks done.workspace.shelf name w.shelf.registries.length c
        (changesOf w.shelf.catalogs (registrations drafts)) done.workspace := by
  rw [step_build] at h
  obtain ⟨c, -, h⟩ := bind_eq_ok_iff.1 h
  obtain ⟨entries, hentries, h⟩ := bind_eq_ok_iff.1 h
  obtain rfl := pure_eq_ok_iff.1 h
  refine ⟨rfl, c, rfl, rfl, Shelf.handle?_add w.shelf name _, ?_⟩
  rw [changesOf_registrations hentries, ← Registry.ofEntries_eq_after]
  exact Shelf.registry?_add w.shelf name _

theorem step_register_add (w : Workspace) (name : String) (r : Registry) (key : String)
    (draft : Draft) :
    step (w.putShelf (w.shelf.add name r)) ((Access.register key draft).command name) = (do
      let e : Entry := ⟨key, ← w.recipe draft⟩
      return ⟨.registry (r.insert e), [.logged (.registering key e.recipe.form)],
        w.putShelf (w.shelf.add name (r.insert e))⟩) := by
  have hrecipe : (w.putShelf (w.shelf.add name r)).recipe draft = w.recipe draft := rfl
  simp only [Access.command, step, RegisteringCommand.step, Workspace.handle_add, hrecipe]
  cases w.recipe draft with
  | error halt => rfl
  | ok recipe =>
    refine registerAt_eq_ok_iff.2 ⟨r, Shelf.registry?_add w.shelf name r, ?_⟩
    simp only [Workspace.putShelf, Shelf.change_add]
    rfl

def registering (name : String) (drafts : List (String × Draft)) : List Command :=
  (registrations drafts).map fun access => access.command name

/-- To register drafts in a registry that was just added is to add it with their entries. -/
theorem run_registering (w : Workspace) (name : String) (r : Registry)
    (drafts : List (String × Draft)) :
    (run (w.putShelf (w.shelf.add name r)) (registering name drafts)).2 =
      (entriesOf w drafts).map fun entries =>
        w.putShelf (w.shelf.add name (r.after (entries.map .put))) := by
  induction drafts generalizing r with
  | nil => rfl
  | cons first drafts ih =>
    obtain ⟨key, draft⟩ := first
    rw [registering, registrations, List.map_cons, List.map_cons, run, step_register_add, entriesOf_cons]
    cases w.recipe draft with
    | error halt => rfl
    | ok recipe =>
      refine (ih (r.insert ⟨key, recipe⟩)).trans ?_
      cases entriesOf w drafts with
      | error halt => simp only [bind, Except.bind]; rfl
      | ok rest => simp only [bind, Except.bind]; rfl

/-- What comes after a registry is built is the same if it was built empty and its entries were registered
one by one. -/
theorem run_build_eq (w : Workspace) (name : String) (source : Option String)
    (drafts : List (String × Draft)) (later : List Command) :
    (run w (build name source drafts :: later)).1.drop 1 =
        (run w (build name source [] :: (registering name drafts ++ later))).1.drop
          (drafts.length + 1) ∧
      (run w (build name source drafts :: later)).2 =
        (run w (build name source [] :: (registering name drafts ++ later))).2 := by
  have hlength : (registering name drafts).length = drafts.length := by
    simp [registering, registrations]
  cases hc : catalogOf w source with
  | error halt =>
    have hhalt (entries : List (String × Draft)) : step w (build name source entries) = .error halt := by
      rw [step_build, hc]
      rfl
    rw [run_cons_of_error (hhalt drafts), run_cons_of_error (hhalt [])]
    simp
  | ok c =>
    have hempty : step w (build name source []) =
        .ok (RegisteringCommand.built w name (.empty c)) := by
      rw [step_build, hc]
      rfl
    have hbuilt : (RegisteringCommand.built w name (.empty c)).workspace =
        w.putShelf (w.shelf.add name (.empty c)) := rfl
    have hend := run_registering w name (.empty c) drafts
    have hcount := length_run_le (w.putShelf (w.shelf.add name (.empty c))) (registering name drafts)
    rw [run_cons_of_ok hempty, hbuilt, run_append]
    rcases hrun : run (w.putShelf (w.shelf.add name (.empty c))) (registering name drafts) with
      ⟨replies, result⟩
    rw [hrun] at hend hcount
    cases hentries : entriesOf w drafts with
    | error halt =>
      have hfull : step w (build name source drafts) = .error halt := by
        rw [step_build, hc, hentries]
        rfl
      rw [hentries] at hend
      obtain rfl : result = .error halt := hend
      rw [run_cons_of_error hfull]
      have hnone : replies.drop drafts.length = [] := List.drop_of_length_le (hlength ▸ hcount)
      exact ⟨hnone.symm, rfl⟩
    | ok entries =>
      have hfull : step w (build name source drafts) =
          .ok (RegisteringCommand.built w name (.ofEntries c entries)) := by
        rw [step_build, hc, hentries]
        rfl
      rw [hentries] at hend
      obtain rfl : result = .ok (w.putShelf (w.shelf.add name (.ofEntries c entries))) := by
        rw [Registry.ofEntries_eq_after]
        exact hend
      rw [run_cons_of_ok hfull]
      have hall : replies.length = drafts.length := (length_run_of_ok hrun).trans hlength
      refine ⟨?_, rfl⟩
      simp only [List.drop_succ_cons, List.drop_zero, ← hall, List.drop_left]
      rfl

/-- The answers of a run and its end are right in view of the history. -/
structure Recorded (name : String) (catalogs : Std.TreeMap String Catalog)
    (earlier accesses : List Access) (replies : List (Reply × List Signal))
    (result : Except Halt Workspace) : Prop where
  agrees : ∀ {n : Nat} {access : Access} {answer : Reply × List Signal},
    accesses[n]? = some access → replies[n]? = some answer →
      access.Agrees catalogs (changesOf catalogs (earlier ++ accesses.take n)) answer.1
  fails : ∀ {halt : Halt}, result = .error halt → ∃ access ∈ accesses, access.Fails catalogs halt
  length_eq : ∀ {w' : Workspace}, result = .ok w' → replies.length = accesses.length
  ends : ∀ {w' : Workspace}, result = .ok w' → ∃ id r, w'.handle name = .ok id ∧
    w'.registry name = .ok r ∧ r.Records (changesOf catalogs (earlier ++ accesses)) ∧
    ∀ key, Shelf.registry? (w'.shelf.resolve id key).shelf id = some r ∧
      Shelf.registry? (w'.shelf.tokenizer id key).shelf id = some r

/-- A registry has for each key what was registered last, when it was built or later, unless the key was
removed since. All that is asked of it is answered by that, and to ask it for tokenizers changes nothing.
The session goes on the same if it is built empty and its first entries are registered one by one. -/
theorem run_records (w : Workspace) (name : String) (source : Option String)
    (drafts : List (String × Draft)) :
    (∀ {built : Step Reply} {accesses : List Access} {replies : List (Reply × List Signal)}
        {result : Except Halt Workspace}, step w (build name source drafts) = .ok built →
      (∀ e, .put e ∈ changesOf w.shelf.catalogs (registrations drafts ++ accesses) →
        built.workspace.Spares name e.recipe) →
      run built.workspace (accesses.map fun access => access.command name) = (replies, result) →
      Recorded name w.shelf.catalogs (registrations drafts) accesses replies result) ∧
    ∀ later : List Command,
      (run w (build name source drafts :: later)).1.drop 1 =
          (run w (build name source [] :: (registering name drafts ++ later))).1.drop
            (drafts.length + 1) ∧
        (run w (build name source drafts :: later)).2 =
          (run w (build name source [] :: (registering name drafts ++ later))).2 := by
  refine ⟨?_, run_build_eq w name source drafts⟩
  intro built accesses replies result hbuilt hspares hrun
  obtain ⟨hcatalogs, c, h⟩ := build_tracks hbuilt
  have hspared : ∀ e, .put e ∈ changesOf w.shelf.catalogs (registrations drafts) ++
      changesOf built.workspace.shelf.catalogs accesses →
      e.recipe.Spares built.workspace.shelf w.shelf.registries.length c := by
    intro e he
    rw [hcatalogs, ← changesOf_append] at he
    have h' := hspares e he (Workspace.handle_eq_ok_iff.2 h.handle?_eq) h.registry_eq
    rwa [Registry.catalog_after] at h'
  obtain ⟨hagrees, hfails, hend⟩ := run_tracks h hspared hrun
  rw [hcatalogs] at hspared hagrees hfails hend
  refine ⟨?_, hfails, ?_, ?_⟩
  · intro n access answer hn hanswer
    rw [changesOf_append]
    exact hagrees hn hanswer
  · rintro w' rfl
    rw [length_run_of_ok hrun, List.length_map]
  · intro w' hw'
    have h' := hend hw'
    have hkept := h'.registry?_resolve hspared
    refine ⟨_, _, Workspace.handle_eq_ok_iff.2 h'.handle?_eq, h'.registry_eq, ?_, fun key => ⟨?_, ?_⟩⟩
    · rw [changesOf_append]
      exact Registry.records_after c _
    · exact hkept key
    · rw [Shelf.tokenizer_shelf]
      exact hkept key

theorem run_records_overwritten :
    let w := Workspace.initial.putShelf (Shelf.initial.add "other" .default)
    let elsewhere : Constructor := .scripted [.register "other" "a" (.named "DispatchTokenizer")]
      (.refused ⟨.denied, "not here"⟩)
    let drafts : List (String × Draft) :=
      [("a", .named "PlainTokenizer"), ("b", .engine (Grammar.parens "b") 3),
        ("a", .engine (Grammar.parens "a") 5)]
    let accesses : List Access :=
      [.entry "a", .register "c" (.factory elsewhere), .resolve "b" "t", .unregister "a",
        .tokenizer "c" "u", .contains "a", .keys]
    ∃ built replies w' r, step w (build "r" none drafts) = .ok built ∧
      run built.workspace (accesses.map fun access => access.command "r") = (replies, .ok w') ∧
      w'.registry "r" = .ok r ∧ r.Records
        [.put ⟨"a", .named "PlainTokenizer"⟩, .put ⟨"b", .engine (Grammar.parens "b") 3⟩,
          .put ⟨"a", .engine (Grammar.parens "a") 5⟩, .put ⟨"c", .factory elsewhere⟩, .drop "a"] := by
  intro w elsewhere drafts accesses
  let entries : List Entry :=
    [⟨"a", .named "PlainTokenizer"⟩, ⟨"b", .engine (Grammar.parens "b") 3⟩,
      ⟨"a", .engine (Grammar.parens "a") 5⟩]
  let built := RegisteringCommand.built w "r" (.ofEntries .builtins entries)
  have hbuilt : step w (build "r" none drafts) = .ok built := rfl
  have hspares : ∀ e, .put e ∈ changesOf w.shelf.catalogs (registrations drafts ++ accesses) →
      built.workspace.Spares "r" e.recipe := by
    intro e he id r hid hr p hp
    have hposition : id = 2 :=
      Except.ok.inj (hid.symm.trans (Workspace.handle_add w "r" (.ofEntries .builtins entries)))
    have hother : built.workspace.shelf.handle? "other" = some 1 := by decide +kernel
    have hcatalog : r.catalog = .builtins := by
      obtain rfl := Except.ok.inj ((Workspace.registry_add w "r" _).symm.trans hr)
      rw [Registry.ofEntries_eq_after, Registry.catalog_after]
      rfl
    rw [hcatalog] at hp
    change Change.put e ∈ [_, _, _, _, _] at he
    simp only [List.mem_cons, Change.put.injEq, reduceCtorEq, List.not_mem_nil, or_false] at he
    rcases he with rfl | rfl | rfl | rfl
    · cases hp
    · cases hp
    · cases hp
    · have hchanges : Recipe.changes built.workspace.shelf .builtins (.factory elsewhere) =
          [(1, .put ⟨"a", .named "DispatchTokenizer"⟩)] := by
        simp [Recipe.changes, Recipe.constructor, Constructor.changes, Edit.change?, elsewhere, hother,
          Shelf.recipe, Draft.recipe]
      obtain rfl := List.mem_singleton.1 (hchanges ▸ hp)
      rw [hposition]
      decide
  have hok : (run built.workspace (accesses.map fun access => access.command "r")).2.isOk = true := by
    decide +kernel
  rcases hrun : run built.workspace (accesses.map fun access => access.command "r") with
    ⟨replies, halt | w'⟩
  · rw [hrun] at hok
    cases hok
  · obtain ⟨id, r, -, hr, hrecords, -⟩ :=
      ((run_records w "r" none drafts).1 hbuilt hspares hrun).ends rfl
    exact ⟨built, replies, w', r, hbuilt, hrun, hr, hrecords⟩

end Session
end Linewise
