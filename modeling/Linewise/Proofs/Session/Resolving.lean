import Linewise.Proofs.Session.Sound

/-! Tokenizers that come from one entry of a registry. Each is made from what was registered when it was
asked for, and from then on it answers to its own uses alone, whatever becomes of the entry and of the
other tokenizers in the meantime. -/
namespace Linewise

@[simp] theorem Instance.languageIndex_fresh (i : Instance) : i.fresh.languageIndex = i.languageIndex := by
  cases i <;> rfl

namespace Session

/-- A use as it appears to the tokenizer: without names, and with the document that is to be updated. -/
inductive Job where
  | ofText (text : String)
  | ofLines (texts : List String)
  | update (d : Document) (texts : List String) (index : Nat)
  | tokenize (text : String)
  | analyze (segment : Segment) (initial : Kind) (offset : Offset)
  | setContext (context : Option Context)
  | takeContext

structure Answer where
  reply : Reply
  signals : List Signal
  document? : Option Document

def answerDocument (operation : Traced → Except Fault (Document × Traced)) (i : Instance) :
    Except Fault (Answer × Instance) := do
  let (d, t) ← operation (.start i)
  return (⟨.lines d.lines, t.signals, some d⟩, t.current)

def Job.run (i : Instance) : Job → Except Fault (Answer × Instance)
  | .ofText text => answerDocument (Document.ofText Traced.tokenizer text) i
  | .ofLines texts => answerDocument (Document.ofLines Traced.tokenizer texts) i
  | .update d texts index => answerDocument (d.update Traced.tokenizer texts index) i
  | .tokenize text => do
    let (tokens, t) ← Traced.tokenizer.tokenize text (.start i)
    return (⟨.tokenized tokens t.current.context, t.signals, none⟩, t.current)
  | .analyze segment initial offset => do
    let (row, t) ← Traced.tokenizer.analyze segment initial offset (.start i)
    return (⟨.analyzed row t.current.context, t.signals, none⟩, t.current)
  | .setContext context =>
    let t := Traced.tokenizer.setContext context (.start i)
    .ok (⟨.context t.current.context, t.signals, none⟩, t.current)
  | .takeContext =>
    let (context, i) := i.takeContext
    .ok (⟨.context context, [], none⟩, i)

/-- The jobs one after the other and nothing else. -/
def serve (i : Instance) : List Job → Except Fault (List Answer × Instance)
  | [] => .ok ([], i)
  | job :: rest => do
    let (answer, i) ← job.run i
    let (answers, i) ← serve i rest
    return (answer :: answers, i)

def Use.job? (w : Workspace) : Use → Option Job
  | .ofText _ text => some (.ofText text)
  | .ofLines _ texts => some (.ofLines texts)
  | .update document texts index => w.documents[document]?.map fun d => .update d texts index
  | .tokenize text => some (.tokenize text)
  | .analyze segment initial offset => some (.analyze segment initial offset)
  | .setContext context => some (.setContext context)
  | .takeContext => some .takeContext

/-- What is done with one key of a registry, and with the tokenizers that came from it. -/
inductive Turn where
  | resolve (target : String)
  | register (grammar : Grammar) (languageIndex : UInt32)
  | unregister
  | use (m : String) (u : Use)

namespace Turn

def command (name key : String) : Turn → Command
  | .resolve target => .registering (.resolve name key target)
  | .register grammar languageIndex => .registering (.register name key (.engine grammar languageIndex))
  | .unregister => .registering (.unregister name key)
  | .use m u => u.command m

def registered : Option (Grammar × UInt32) → Turn → Option (Grammar × UInt32)
  | _, .register grammar languageIndex => some (grammar, languageIndex)
  | _, .unregister => none
  | engine?, .resolve _ | engine?, .use _ _ => engine?

def owner? : Turn → Option String
  | .resolve target => some target
  | .use m _ => some m
  | .register _ _ | .unregister => none

/-- The job, if the turn is a use of `m`, with the answer that the session gives to it. -/
def asked? (m : String) (w : Workspace) (done : Step Reply) : Turn → Option (Job × Answer)
  | .use other u =>
    if other = m then (u.job? w).map fun job =>
      (job, ⟨done.reply, done.signals, u.document?.bind fun d => done.workspace.documents[d]?⟩)
    else none
  | .resolve _ | .register _ _ | .unregister => none

end Turn

/-- All jobs of the tokenizer `m` in the course of the turns, with the answers to them. -/
def askedOf (name key m : String) (w : Workspace) : List Turn → List (Job × Answer)
  | [] => []
  | turn :: rest =>
    match step w (turn.command name key) with
    | .ok done => (turn.asked? m w done).toList ++ askedOf name key m done.workspace rest
    | .error _ => []

/-- The registry of that name has an engine for the key, or nothing. -/
def Maps (name key : String) (engine? : Option (Grammar × UInt32)) (w : Workspace) : Prop :=
  ∃ r, w.registry name = .ok r ∧ (r.find? key).map Entry.recipe =
    engine?.map fun engine => .engine engine.1 engine.2

variable {name key m : String} {w w' : Workspace} {done : Step Reply}

/-- What a use does in a session is what its job does to the tokenizer alone. -/
theorem step_use {u : Use} (hstep : step w (u.command m) = .ok done) :
    ∃ i job i', w.tokenizer m = .ok i ∧ u.job? w = some job ∧
      job.run i = .ok (⟨done.reply, done.signals,
        u.document?.bind fun d => done.workspace.documents[d]?⟩, i') ∧
      done.workspace.tokenizers = w.tokenizers.insert m i' := by
  have hstore {target : String} {operation : Traced → Except Fault (Document × Traced)}
      (h : EditingCommand.store w m target operation = .ok done) :
      ∃ i i', w.tokenizer m = .ok i ∧ answerDocument operation i =
          .ok (⟨done.reply, done.signals, done.workspace.documents[target]?⟩, i') ∧
        done.workspace.tokenizers = w.tokenizers.insert m i' := by
    obtain ⟨i, d, t, hi, ht, rfl⟩ := store_eq_ok_iff.1 h
    refine ⟨i, t.current, hi, ?_, rfl⟩
    rw [Workspace.documents_putDocument_self]
    exact bind_eq_ok_iff.2 ⟨_, ht, rfl⟩
  cases u with
  | ofText target text =>
    obtain ⟨i, i', hi, hrun, hput⟩ := hstore hstep
    exact ⟨i, .ofText text, i', hi, rfl, hrun, hput⟩
  | ofLines target texts =>
    obtain ⟨i, i', hi, hrun, hput⟩ := hstore hstep
    exact ⟨i, .ofLines texts, i', hi, rfl, hrun, hput⟩
  | update target texts index =>
    obtain ⟨d, hd, hstep⟩ := bind_eq_ok_iff.1 hstep
    obtain ⟨i, i', hi, hrun, hput⟩ := hstore hstep
    refine ⟨i, .update d texts index, i', hi, ?_, hrun, hput⟩
    rw [Use.job?, Workspace.orMissing_eq_ok_iff.1 hd]
    rfl
  | tokenize text =>
    simp only [Use.command, step, AnalysisCommand.step] at hstep
    obtain ⟨i, reply, t', hi, hrun, rfl⟩ := Workspace.drive_eq_ok_iff.1 hstep
    obtain ⟨⟨tokens, t⟩, htokens, hrun⟩ := bind_eq_ok_iff.1 hrun
    obtain ⟨rfl, rfl⟩ := Prod.mk.inj (pure_eq_ok_iff.1 hrun)
    exact ⟨i, .tokenize text, t.current, hi, rfl, bind_eq_ok_iff.2 ⟨_, htokens, rfl⟩, rfl⟩
  | analyze segment initial offset =>
    simp only [Use.command, step, AnalysisCommand.step] at hstep
    obtain ⟨i, reply, t', hi, hrun, rfl⟩ := Workspace.drive_eq_ok_iff.1 hstep
    obtain ⟨⟨row, t⟩, hrow, hrun⟩ := bind_eq_ok_iff.1 hrun
    obtain ⟨rfl, rfl⟩ := Prod.mk.inj (pure_eq_ok_iff.1 hrun)
    exact ⟨i, .analyze segment initial offset, t.current, hi, rfl,
      bind_eq_ok_iff.2 ⟨_, hrow, rfl⟩, rfl⟩
  | setContext context =>
    simp only [Use.command, step, AnalysisCommand.step] at hstep
    obtain ⟨i, reply, t, hi, hrun, rfl⟩ := Workspace.drive_eq_ok_iff.1 hstep
    obtain ⟨rfl, rfl⟩ := Prod.mk.inj (pure_eq_ok_iff.1 hrun)
    exact ⟨i, .setContext context, _, hi, rfl, rfl, rfl⟩
  | takeContext =>
    obtain ⟨i, hi, hstep⟩ := bind_eq_ok_iff.1 hstep
    obtain rfl := pure_eq_ok_iff.1 hstep
    exact ⟨i, .takeContext, _, hi, rfl, rfl, rfl⟩

theorem shelf_use {u : Use} (hstep : step w (u.command m) = .ok done) :
    done.workspace.shelf = w.shelf := by
  cases u with
  | ofText | ofLines | update =>
    simp only [Use.command, step] at hstep
    exact shelf_editing hstep
  | tokenize | analyze | setContext | takeContext =>
    simp only [Use.command, step] at hstep
    exact shelf_analysis hstep

/-- The frame: a turn that has to do with another tokenizer, or with none, does nothing to `m`. -/
theorem step_other {turn : Turn} (hother : turn.owner? ≠ some m)
    (hstep : step w (turn.command name key) = .ok done) :
    done.workspace.tokenizer m = w.tokenizer m := by
  cases turn with
  | resolve target => exact (builds_registering hstep).tokenizer_eq hother
  | register grammar languageIndex => exact (builds_registering hstep).tokenizer_eq hother
  | unregister => exact (builds_registering hstep).tokenizer_eq hother
  | use other u =>
    have hne : other ≠ m := fun heq => hother (congrArg some heq)
    obtain ⟨i, job, i', -, -, -, hput⟩ := step_use hstep
    exact Workspace.tokenizer_eq_of_insert hne hput

theorem registry_change {id : Nat} {r : Registry} (hid : w.handle name = .ok id)
    (hr : w.registry name = .ok r) (c : Change) :
    (w.putShelf (w.shelf.change id c)).registry name = .ok (c.apply r) := by
  have hr := (Workspace.registry_eq_ok_iff_of_handle hid).1 hr
  have hchanged : Shelf.registry? (w.shelf.change id c) id = some (c.apply r) := by
    rw [Shelf.registry?_change, if_pos rfl, hr]
    rfl
  exact Workspace.registry_eq_ok_iff.2 ⟨id, Workspace.handle_eq_ok_iff.1 hid, hchanged⟩

theorem Maps.of_shelf {engine? : Option (Grammar × UInt32)} (h : Maps name key engine? w)
    (hshelf : w'.shelf = w.shelf) : Maps name key engine? w' := by
  obtain ⟨r, hr, hentry⟩ := h
  refine ⟨r, ?_, hentry⟩
  rw [← hr, Workspace.registry, Workspace.registry, Workspace.handle, Workspace.handle, hshelf]

theorem Maps.resolve_absent (h : Maps name key none w) {id : Nat} (hid : w.handle name = .ok id) :
    w.shelf.resolve id key = ⟨.absent, w.shelf, []⟩ := by
  obtain ⟨r, hr, hentry⟩ := h
  have hr := (Workspace.registry_eq_ok_iff_of_handle hid).1 hr
  have hnone := Option.map_eq_none_iff.1 hentry
  simp only [Shelf.resolve, hr, hnone]

/-- What comes of the entry is an engine before its first line, without a context. -/
theorem Maps.resolve_made {grammar : Grammar} {languageIndex : UInt32}
    (h : Maps name key (some (grammar, languageIndex)) w) {id : Nat} (hid : w.handle name = .ok id) :
    w.shelf.resolve id key = ⟨.made (.engine (.new (some grammar) languageIndex)), w.shelf,
      [.logged (.resolved key "Dispatch")]⟩ := by
  obtain ⟨r, hr, hentry⟩ := h
  have hr := (Workspace.registry_eq_ok_iff_of_handle hid).1 hr
  obtain ⟨e, he, hrecipe⟩ := Option.map_eq_some_iff.1 hentry
  simp only [Shelf.resolve, hr, he, hrecipe]
  rfl

/-- The entry follows the turns: to resolve the key or to use a tokenizer does nothing to it. -/
theorem step_maps {engine? : Option (Grammar × UInt32)} (h : Maps name key engine? w) {turn : Turn}
    (hstep : step w (turn.command name key) = .ok done) :
    Maps name key (turn.registered engine?) done.workspace := by
  cases turn with
  | resolve target =>
    obtain ⟨id, hid, hstep⟩ := bind_eq_ok_iff.1 hstep
    refine h.of_shelf ((shelf_resolved hstep).trans ?_)
    cases engine? with
    | none => rw [h.resolve_absent hid]
    | some engine => rw [h.resolve_made hid]
  | register grammar languageIndex =>
    obtain ⟨r, hr, -⟩ := h
    obtain ⟨id, hid, hstep⟩ := bind_eq_ok_iff.1 hstep
    obtain ⟨recipe, hrecipe, hstep⟩ := bind_eq_ok_iff.1 hstep
    obtain ⟨r', -, rfl⟩ := registerAt_eq_ok_iff.1 hstep
    obtain rfl := Except.ok.inj hrecipe
    refine ⟨_, registry_change hid hr _, ?_⟩
    simp [Change.apply, Turn.registered]
  | unregister =>
    obtain ⟨r, hr, -⟩ := h
    obtain ⟨id, hid, hstep⟩ := bind_eq_ok_iff.1 hstep
    obtain ⟨r', -, hstep⟩ := bind_eq_ok_iff.1 hstep
    obtain rfl := pure_eq_ok_iff.1 hstep
    refine ⟨_, registry_change hid hr (.drop key), ?_⟩
    simp [Change.apply, Turn.registered]
  | use m u => exact h.of_shelf (shelf_use hstep)

/-- The run: what is registered at the end is what was registered last. -/
theorem run_maps {engine? : Option (Grammar × UInt32)} {turns : List Turn}
    {replies : List (Reply × List Signal)} (h : Maps name key engine? w)
    (hrun : run w (turns.map fun turn => turn.command name key) = (replies, .ok w')) :
    Maps name key (turns.foldl Turn.registered engine?) w' := by
  induction turns generalizing w engine? replies with
  | nil =>
    obtain ⟨-, hw'⟩ := Prod.mk.inj hrun
    rwa [← Except.ok.inj hw']
  | cons turn rest ih =>
    obtain ⟨done, later, hstep, hrest, -⟩ := run_cons_eq_ok_iff.1 hrun
    exact ih (step_maps h hstep) hrest

/-- The run: a tokenizer that is not replaced answers its own uses as it would alone. -/
theorem run_serves {i j : Instance} {turns : List Turn} {replies : List (Reply × List Signal)}
    (hj : w.tokenizer m = .ok j) (hlike : j.fresh = i.fresh)
    (hkept : Turn.resolve m ∉ turns)
    (hrun : run w (turns.map fun turn => turn.command name key) = (replies, .ok w')) :
    ∃ j', serve j ((askedOf name key m w turns).map Prod.fst) =
        .ok ((askedOf name key m w turns).map Prod.snd, j') ∧
      w'.tokenizer m = .ok j' ∧ j'.fresh = i.fresh := by
  induction turns generalizing w j replies with
  | nil =>
    obtain ⟨-, hw'⟩ := Prod.mk.inj hrun
    exact ⟨j, rfl, Except.ok.inj hw' ▸ hj, hlike⟩
  | cons turn rest ih =>
    obtain ⟨done, later, hstep, hrest, -⟩ := run_cons_eq_ok_iff.1 hrun
    have hrestKept : Turn.resolve m ∉ rest := fun hmem => hkept (List.mem_cons_of_mem turn hmem)
    have hasked : askedOf name key m w (turn :: rest) =
        (turn.asked? m w done).toList ++ askedOf name key m done.workspace rest := by
      rw [askedOf, hstep]
    rw [hasked]
    by_cases howner : turn.owner? = some m
    · cases turn with
      | resolve target =>
        obtain rfl := Option.some.inj howner
        exact absurd List.mem_cons_self hkept
      | register grammar languageIndex => cases howner
      | unregister => cases howner
      | use other u =>
        obtain rfl := Option.some.inj howner
        obtain ⟨i', job, j₁, hi', hjob, hserved, hput⟩ := step_use hstep
        obtain rfl := Except.ok.inj (hj.symm.trans hi')
        have hj₁ : done.workspace.tokenizer other = .ok j₁ := by
          rw [Workspace.tokenizer, hput, Std.TreeMap.getElem?_insert_self]
          rfl
        have hlike₁ := (step_frame ⟨j, hj, hlike⟩ hstep).1.fresh_eq hj₁
        obtain ⟨j', hserve, hend⟩ := ih hj₁ hlike₁ hrestKept hrest
        refine ⟨j', ?_, hend⟩
        simp only [Turn.asked?, if_true, hjob, Option.map_some, Option.toList_some,
          List.singleton_append, List.map_cons]
        exact bind_eq_ok_iff.2 ⟨_, hserved, bind_eq_ok_iff.2 ⟨_, hserve, rfl⟩⟩
    · have hsame := step_other howner hstep
      have hnone : turn.asked? m w done = none := by
        cases turn with
        | resolve target => rfl
        | register grammar languageIndex => rfl
        | unregister => rfl
        | use other u => exact if_neg fun heq => howner (congrArg some heq)
      rw [hnone]
      exact ih (hsame.trans hj) hlike hrestKept hrest

/-- A tokenizer that is resolved has the grammar and the language index that are registered then, and no
context. Whatever is done later with the key and with other tokenizers, its answers, the documents made
with it and what it is left with are those of an engine made for the same grammar and language index
that gets its own uses and nothing else. -/
theorem run_resolved {name key : String} {w v w' : Workspace} {r : Registry} {e : Entry}
    {grammar : Grammar} {languageIndex : UInt32} (hr : w.registry name = .ok r)
    (he : r.find? key = some e) (hrecipe : e.recipe = .engine grammar languageIndex)
    {target : String} {before after : List Turn} {earlier replies : List (Reply × List Signal)}
    (hbefore : run w (before.map fun turn => turn.command name key) = (earlier, .ok v))
    (hafter : run v ((.resolve target :: after).map fun turn => turn.command name key) =
      (replies, .ok w')) (hkept : Turn.resolve target ∉ after) :
    match before.foldl Turn.registered (some (grammar, languageIndex)) with
    | none => replies.head?.map Prod.fst = some .nothing
    | some (registered, index) =>
      let engine := Engine.new (some registered) index
      let i := Instance.engine engine
      let asked := askedOf name key target v (.resolve target :: after)
      engine.grammar = some registered ∧ i.languageIndex = index ∧ i.context = none ∧
        replies.head?.map Prod.fst = some (.made i) ∧
        ∃ j, serve i (asked.map Prod.fst) = .ok (asked.map Prod.snd, j) ∧
          w'.tokenizer target = .ok j ∧ j.languageIndex = index := by
  have hw : Maps name key (some (grammar, languageIndex)) w :=
    ⟨r, hr, by rw [he, Option.map_some, hrecipe]; rfl⟩
  have hv := run_maps hw hbefore
  rw [List.map_cons] at hafter
  obtain ⟨done, rest, hstep, hrest, rfl⟩ := run_cons_eq_ok_iff.1 hafter
  have hasked : askedOf name key target v (.resolve target :: after) =
      askedOf name key target done.workspace after := by
    rw [askedOf, hstep]
    rfl
  rw [hasked]
  obtain ⟨id, hid, hstep⟩ := bind_eq_ok_iff.1 hstep
  generalize before.foldl Turn.registered (some (grammar, languageIndex)) = engine? at hv
  cases engine? with
  | none =>
    rw [hv.resolve_absent hid] at hstep
    obtain rfl := Except.ok.inj hstep
    rfl
  | some now =>
    obtain ⟨registered, index⟩ := now
    rw [hv.resolve_made hid] at hstep
    obtain rfl := Except.ok.inj hstep
    have hmade := Workspace.tokenizer_putTokenizer (v.putShelf v.shelf) target
      (.engine (.new (some registered) index))
    obtain ⟨j, hserve, hj, hlike⟩ := run_serves hmade rfl hkept hrest
    refine ⟨rfl, rfl, rfl, rfl, j, hserve, hj, ?_⟩
    rw [← Instance.languageIndex_fresh, hlike]
    rfl

theorem run_resolved_parens :
    let w := Workspace.initial.putShelf (Shelf.initial.add "r"
      (.ofEntries .builtins [⟨"k", .engine (Grammar.parens "a") 3⟩]))
    let command (turn : Turn) : Command := turn.command "r" "k"
    let before : List Turn := [.register (Grammar.parens "b") 4, .resolve "u", .use "u" (.tokenize "(")]
    let after : List Turn :=
      [.use "t" (.ofText "d" "((\n("), .register (Grammar.parens "c") 9, .resolve "v",
        .use "v" (.update "d" ["(", "("] 0), .unregister, .use "u" (.setContext (some (.nesting 5))),
        .use "t" (.update "d" ["(", "(("] 1), .use "t" (.analyze (.whole "(") .text 3)]
    let i := Instance.engine (.new (some (Grammar.parens "b")) 4)
    ∃ earlier v replies w' j, run w (before.map command) = (earlier, .ok v) ∧
      run v ((.resolve "t" :: after).map command) = (replies, .ok w') ∧
      replies.head?.map Prod.fst = some (.made i) ∧ i.languageIndex = 4 ∧ i.context = none ∧
      serve i ((askedOf "r" "k" "t" v (.resolve "t" :: after)).map Prod.fst) =
        .ok ((askedOf "r" "k" "t" v (.resolve "t" :: after)).map Prod.snd, j) ∧
      w'.tokenizer "t" = .ok j ∧ j.languageIndex = 4 := by
  intro w command before after i
  let e : Entry := ⟨"k", .engine (Grammar.parens "a") 3⟩
  have hr : w.registry "r" = .ok (.ofEntries .builtins [e]) :=
    Workspace.registry_add Workspace.initial "r" _
  have he : Registry.find? (.ofEntries .builtins [e]) "k" = some e :=
    (Registry.find?_insert ..).trans (if_pos rfl)
  have hok : ((run w (before.map command)).2.toOption.any fun v =>
      (run v ((.resolve "t" :: after).map command)).2.isOk) = true := by decide +kernel
  have hkept : Turn.resolve "t" ∉ after := by simp [after]
  rcases hbefore : run w (before.map command) with ⟨earlier, halt | v⟩
  · rw [hbefore] at hok
    cases hok
  · rcases hafter : run v ((.resolve "t" :: after).map command) with ⟨replies, halt | w'⟩
    · rw [hbefore] at hok
      change (run v ((.resolve "t" :: after).map command)).2.isOk = true at hok
      rw [hafter] at hok
      cases hok
    · obtain ⟨-, hstart, hcontext, hmade, j, hserve, hj, hindex⟩ :=
        run_resolved hr he rfl hbefore hafter hkept
      exact ⟨earlier, v, replies, w', j, rfl, hafter, hmade, hstart, hcontext, hserve, hj, hindex⟩

end Session
end Linewise
