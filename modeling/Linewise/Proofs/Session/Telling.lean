import Linewise.Proofs.Session.Constructions
import Linewise.Proofs.Tokenizer.Watching

/-! What the grammars are told of contexts in a session. Each report comes from a use of a tokenizer and is
decided before any line is analyzed; and what was reported last is what the next analysis begins with. -/
namespace Linewise

def Watched.take (o : Watched) : Watched := ⟨o.state.take, o.history ++ [.took]⟩

theorem Traced.Seen.take {e : Engine} {reported : List (Option Context)} {s : Traced} {o : Watched}
    (h : Seen e reported s o) : Seen e reported s.take o.take := by
  have hstate := h.state_eq
  subst hstate
  exact ⟨rfl, (Instance.fresh_takeContext o.state.current).trans h.fresh_eq, h.follows.took _⟩

namespace Session

def Job.watch (i : Instance) (history : List Moment) (job : Job) : List Moment :=
  match job.perform Traced.watched Watched.take ⟨.start i, history⟩ with
  | .ok o => o.history
  | .error _ => history

/-- The watch changes nothing: the job comes to the same tokenizer and to the same signals under it. -/
theorem Job.exists_seen {e : Engine} {g : Grammar} (hgrammar : e.grammar = some g) {i i' : Instance}
    {job : Job} {answer : Answer} {history : List Moment} {reported : List (Option Context)}
    (hi : i.fresh = (Instance.engine e).fresh) (h : Follows i.context history reported)
    (hrun : job.run i = .ok (answer, i')) :
    ∃ o, job.perform Traced.watched Watched.take ⟨.start i, history⟩ = .ok o ∧
      Traced.Seen e (reported ++ job.told?.toList) ⟨i', answer.signals⟩ o := by
  have hstart : Traced.Seen e reported (.start i) ⟨.start i, history⟩ := ⟨rfl, hi, h⟩
  exact job.perform_mirror (Traced.mirror_seen hgrammar _) Traced.Seen.take (hstart.tell job.told?)
    (perform_of_run hrun)

theorem Job.follows_watch {e : Engine} {g : Grammar} (hgrammar : e.grammar = some g)
    {i i' : Instance} {job : Job} {answer : Answer} {history : List Moment}
    {reported : List (Option Context)} (hi : i.fresh = (Instance.engine e).fresh) (h : Follows i.context history reported)
    (hrun : job.run i = .ok (answer, i')) :
    i'.fresh = (Instance.engine e).fresh ∧
      Follows i'.context (job.watch i history) (reported ++ job.told?.toList) := by
  obtain ⟨o, hwatched, hseen⟩ := exists_seen hgrammar hi h hrun
  have hwatch : job.watch i history = o.history := by
    unfold watch
    rw [hwatched]
  rw [hwatch]
  exact ⟨hseen.fresh_eq, hseen.follows⟩

/-- What a grammar is told, with its label and the name of the tokenizer whose context it is. -/
structure Report where
  tokenizer : String
  label : String
  context : Option Context
  deriving DecidableEq, Repr

/-- The report as the grammar has it, which cannot tell the tokenizers apart that share it. -/
def Report.change (r : Report) : String × Option Context := (r.label, r.context)

namespace Command

def report? (w : Workspace) (command : Command) : Option Report := do
  let (m, u) ← command.use?
  let i ← w.tokenizers[m]?
  let job ← u.job? w
  let (label, context) ← job.report? i
  return ⟨m, label, context⟩

def watch (m : String) (w : Workspace) (history : List Moment) (command : Command) : List Moment :=
  match command.use? with
  | some (other, u) =>
    if other = m then
      match w.tokenizers[m]?, u.job? w with
      | some i, some job => job.watch i history
      | _, _ => history
    else history
  | none => history

variable {w : Workspace} {m : String} {u : Use} {i : Instance} {job : Job}

theorem report?_of_idle {command : Command} (hidle : command.use? = none) :
    command.report? w = none := by
  unfold report?
  rw [hidle]
  rfl

theorem watch_of_idle {command : Command} (hidle : command.use? = none) (history : List Moment) :
    command.watch m w history = history := by
  unfold watch
  rw [hidle]

theorem report?_command (hi : w.tokenizer m = .ok i) (hjob : u.job? w = some job) :
    (u.command m).report? w = (job.report? i).map fun change => ⟨m, change.1, change.2⟩ := by
  have hi := Workspace.orMissing_eq_ok_iff.1 hi
  unfold report?
  rw [use?_command]
  simp only [Option.bind_eq_bind, Option.bind_some, hi, hjob]
  cases job.report? i <;> rfl

theorem watch_command (hi : w.tokenizer m = .ok i) (hjob : u.job? w = some job)
    (history : List Moment) : (u.command m).watch m w history = job.watch i history := by
  have hi := Workspace.orMissing_eq_ok_iff.1 hi
  unfold watch
  simp only [use?_command, if_true, hi, hjob]

theorem watch_command_of_ne {other : String} (hne : other ≠ m) (history : List Moment) :
    (u.command other).watch m w history = history := by
  unfold watch
  simp only [use?_command, if_neg hne]

end Command

/-- The reports of a session in order, up to the first command that gets no answer. -/
def reportsOf (w : Workspace) : List Command → List Report
  | [] => []
  | command :: rest =>
    match step w command with
    | .ok done => (command.report? w).toList ++ reportsOf done.workspace rest
    | .error _ => []

/-- The history of the tokenizer `m` in the course of the commands. -/
def historyOf (m : String) (w : Workspace) (history : List Moment) : List Command → List Moment
  | [] => history
  | command :: rest =>
    match step w command with
    | .ok done => historyOf m done.workspace (command.watch m w history) rest
    | .error _ => history

def contextsOf (m : String) (reports : List Report) : List (Option Context) :=
  (reports.filter fun r => r.tokenizer = m).map Report.context

theorem contextsOf_append (m : String) (reports later : List Report) :
    contextsOf m (reports ++ later) = contextsOf m reports ++ contextsOf m later := by
  unfold contextsOf
  rw [List.filter_append, List.map_append]

variable {w : Workspace} {done : Step Reply} {command : Command}

/-- The step lemma for the reports. -/
theorem step_changes (hstep : step w command = .ok done) :
    Signal.changes done.signals = (command.report? w).toList.map Report.change := by
  cases huse : command.use? with
  | none =>
    obtain ⟨runs, events, -, hsignals⟩ := (step_builds huse hstep).signals_eq
    rw [hsignals, Signal.changes_ofBuilding, Command.report?_of_idle huse]
    rfl
  | some p =>
    obtain ⟨m, u⟩ := p
    obtain rfl := Command.eq_of_use? huse
    obtain ⟨i, job, i', hi, hjob, hrun, -⟩ := step_use hstep
    have hchanges : Signal.changes done.signals = (job.report? i).toList := Job.changes_of_run hrun
    rw [hchanges, Command.report?_command hi hjob]
    cases job.report? i <;> rfl

/-- The run: the signals hold just the reports. -/
theorem run_changes (w : Workspace) (commands : List Command) :
    Signal.changes ((run w commands).1.flatMap Prod.snd) = (reportsOf w commands).map Report.change := by
  induction commands generalizing w with
  | nil => rfl
  | cons command rest ih =>
    cases hstep : step w command with
    | error halt =>
      rw [run_cons_of_error hstep, reportsOf, hstep]
      rfl
    | ok done =>
      rw [run_cons_of_ok hstep, List.flatMap_cons, Signal.changes_append, step_changes hstep,
        ih done.workspace, ← List.map_append, reportsOf, hstep]

/-- The tokenizer `m` is an engine like `e`, and what has happened to its context is the history. -/
def IsWatched (m : String) (e : Engine) (w : Workspace) (history : List Moment)
    (reported : List (Option Context)) : Prop :=
  ∃ i, w.tokenizer m = .ok i ∧ i.fresh = (Instance.engine e).fresh ∧
    Follows i.context history reported

variable {m : String} {e : Engine} {g : Grammar} {history : List Moment}
  {reported : List (Option Context)}

theorem IsWatched.of_tokenizer_eq {w' : Workspace} (h : IsWatched m e w history reported)
    (hsame : w'.tokenizer m = w.tokenizer m) : IsWatched m e w' history reported := by
  obtain ⟨i, hi, hengine, hfollows⟩ := h
  exact ⟨i, hsame.trans hi, hengine, hfollows⟩

/-- The step lemma for the history of one tokenizer, which the command does not replace. -/
theorem step_isWatched (hgrammar : e.grammar = some g) (hlistens : g.listens = true)
    (h : IsWatched m e w history reported) (hkept : command.target? ≠ some m)
    (hstep : step w command = .ok done) :
    IsWatched m e done.workspace (command.watch m w history)
      (reported ++ contextsOf m (command.report? w).toList) := by
  cases huse : command.use? with
  | none =>
    rw [Command.watch_of_idle huse, Command.report?_of_idle huse]
    simp only [contextsOf, Option.toList_none, List.filter_nil, List.map_nil, List.append_nil]
    exact h.of_tokenizer_eq ((step_builds huse hstep).tokenizer_eq hkept)
  | some p =>
    obtain ⟨other, u⟩ := p
    obtain rfl := Command.eq_of_use? huse
    obtain ⟨i, job, i', hi, hjob, hrun, hput⟩ := step_use hstep
    rw [Command.report?_command hi hjob]
    -- a use of another tokenizer may well be reported to the same grammar
    by_cases hother : other = m
    · subst hother
      obtain ⟨i₀, hi₀, hengine, hfollows⟩ := h
      obtain rfl := Except.ok.inj (hi₀.symm.trans hi)
      obtain ⟨hengine', hfollows'⟩ := Job.follows_watch hgrammar hengine hfollows hrun
      have hreport : contextsOf other ((job.report? i₀).map fun change =>
          (⟨other, change.1, change.2⟩ : Report)).toList = job.told?.toList := by
        obtain ⟨e', rfl, hsame, -⟩ := Instance.eq_engine_of_fresh hengine
        have hlabel : (Instance.engine e').listener? = some g.label := by
          simp [Instance.listener?, hsame, hgrammar, hlistens]
        rw [Job.report?, hlabel]
        cases job.told? <;> simp [contextsOf]
      rw [Command.watch_command hi hjob, hreport]
      refine ⟨i', ?_, hengine', hfollows'⟩
      rw [Workspace.tokenizer, hput, Std.TreeMap.getElem?_insert_self]
      rfl
    · have hreport : contextsOf m ((job.report? i).map fun change =>
          (⟨other, change.1, change.2⟩ : Report)).toList = [] := by
        cases job.report? i <;> simp [contextsOf, hother]
      rw [Command.watch_command_of_ne hother, hreport, List.append_nil]
      exact h.of_tokenizer_eq (Workspace.tokenizer_eq_of_insert hother hput)

/-- The run: the history follows to the end. -/
theorem run_follows (hgrammar : e.grammar = some g) (hlistens : g.listens = true)
    (h : IsWatched m e w history reported) {commands : List Command}
    (hkept : ∀ command ∈ commands, command.target? ≠ some m) :
    ∃ context, Follows context (historyOf m w history commands)
      (reported ++ contextsOf m (reportsOf w commands)) := by
  induction commands generalizing w history reported with
  | nil =>
    obtain ⟨i, -, -, hfollows⟩ := h
    exact ⟨i.context, (List.append_nil reported).symm ▸ hfollows⟩
  | cons command rest ih =>
    rw [historyOf, reportsOf]
    cases hstep : step w command with
    | error halt =>
      obtain ⟨i, -, -, hfollows⟩ := h
      exact ⟨i.context, (List.append_nil reported).symm ▸ hfollows⟩
    | ok done =>
      obtain ⟨hfirst, hrest⟩ := List.forall_mem_cons.1 hkept
      have hnext := step_isWatched hgrammar hlistens h hfirst hstep
      obtain ⟨context, hfollows⟩ := ih hnext hrest
      refine ⟨context, ?_⟩
      rw [contextsOf_append, ← List.append_assoc]
      exact hfollows

/-- In every session, of however many tokenizers and documents, the grammars are told of contexts just
what the uses of the tokenizers report, in order. Where a tokenizer whose grammar listens is not replaced,
its context is set from outside when that is reported and never else, and the grammar is handed the
reported context for an analysis that follows on a report with nothing taken away in between. -/
theorem run_tells (w : Workspace) (commands : List Command) :
    Signal.changes ((run w commands).1.flatMap Prod.snd) =
      (reportsOf w commands).map Report.change ∧
    ∀ {m : String} {e : Engine} {g : Grammar}, w.tokenizer m = .ok (.engine e) →
      e.grammar = some g → g.listens = true → (∀ command ∈ commands, command.target? ≠ some m) →
        (historyOf m w [] commands).filterMap Moment.told? = contextsOf m (reportsOf w commands) ∧
        ∀ {c c' : Option Context}, [.told c, .began c'] <:+: historyOf m w [] commands → c' = c := by
  refine ⟨run_changes w commands, ?_⟩
  intro m e g hm hgrammar hlistens hkept
  have hstart : IsWatched m e w [] [] := ⟨.engine e, hm, rfl, .nil e.context⟩
  obtain ⟨context, hfollows⟩ := run_follows hgrammar hlistens hstart hkept
  exact ⟨hfollows.reported_eq, hfollows.began_eq⟩

/-- Two engines with one grammar. The update goes on from the first line of a document that the other
engine has made, the second update is past the end, and the last document has no lines. -/
theorem run_tells_shared :
    let w := (Workspace.initial.putTokenizer "a" (Grammar.Parens.tokenizer "parens" 0)).putTokenizer "b"
      (Grammar.Parens.tokenizer "parens" 1)
    let commands : List Command :=
      [(Use.setContext (some (.nesting 7))).command "a", (Use.analyze (.whole "(") .text 0).command "a",
        (Use.ofText "d" "(\n(").command "b", (Use.update "d" ["(", "(("] 1).command "a",
        (Use.update "d" ["("] 5).command "b", Use.takeContext.command "a",
        (Use.ofLines "e" []).command "b"]
    let e : Engine := .new (some (Grammar.parens "parens")) 0
    let seven : Option Context := some (.nesting 7)
    let one : Option Context := some (.nesting 1)
    w.tokenizer "a" = .ok (.engine e) ∧ e.grammar = some (Grammar.parens "parens") ∧
      (Grammar.parens "parens").listens = true ∧
      (∀ command ∈ commands, command.target? ≠ some "a") ∧
      Signal.changes ((run w commands).1.flatMap Prod.snd) =
        [("parens", seven), ("parens", none), ("parens", one), ("parens", none)] ∧
      (historyOf "a" w [] commands).filterMap Moment.told? = [seven, one] ∧
      ∃ context, [.told one, .began context] <:+: historyOf "a" w [] commands ∧ context = one := by
  intro w commands e seven one
  have hne : "b" ≠ "a" := by decide
  have hm : w.tokenizer "a" = .ok (.engine e) :=
    (Workspace.tokenizer_eq_of_insert hne rfl).trans (Workspace.tokenizer_putTokenizer ..)
  have hkept : ∀ command ∈ commands, command.target? ≠ some "a" := by
    simp [commands, Use.command, Command.target?]
  have hreports : reportsOf w commands =
      [⟨"a", "parens", seven⟩, ⟨"b", "parens", none⟩, ⟨"a", "parens", one⟩, ⟨"b", "parens", none⟩] := by
    decide +kernel
  have hhistory : historyOf "a" w [] commands =
      [.told seven, .began seven, .told one, .began one, .took] := by
    decide +kernel
  obtain ⟨hchanges, hengine⟩ := run_tells w commands
  obtain ⟨htold, hbegan⟩ := hengine hm rfl rfl hkept
  rw [hreports] at hchanges htold
  have hnext : [.told one, .began one] <:+: historyOf "a" w [] commands := by
    rw [hhistory]
    exact ⟨[.told seven, .began seven], [.took], rfl⟩
  exact ⟨hm, rfl, rfl, hkept, hchanges, htold, one, hnext, hbegan hnext⟩

end Session
end Linewise
