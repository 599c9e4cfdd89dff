import Linewise.Proofs.Session.Jobs

/-! Which commands have a constructor run, and which put a tokenizer under a name. Only those that ask for
a tokenizer have one run, at most once each, whatever else is registered or analyzed. -/
namespace Linewise.Session

namespace Command

/-- The name that may stand for another tokenizer afterwards. -/
def target? : Command → Option String
  | .analysis (.equip target _) => some target
  | .registering command => command.target?
  | .analysis _ | .editing _ => none

def use? : Command → Option (String × Use)
  | .analysis (.analyze m segment initial offset) => some (m, .analyze segment initial offset)
  | .analysis (.tokenize m text) => some (m, .tokenize text)
  | .analysis (.setContext m context) => some (m, .setContext context)
  | .analysis (.takeContext m) => some (m, .takeContext)
  | .editing (.ofText m text target) => some (m, .ofText target text)
  | .editing (.ofLines m texts target) => some (m, .ofLines target texts)
  | .editing (.update document m texts index) => some (m, .update document texts index)
  | .analysis _ | .editing _ | .registering _ => none

@[simp] theorem use?_command (m : String) (u : Use) : (u.command m).use? = some (m, u) := by
  cases u <;> rfl

theorem eq_of_use? {command : Command} {m : String} {u : Use} (h : command.use? = some (m, u)) :
    command = u.command m := by
  cases command with
  | analysis command => cases command <;> cases h <;> rfl
  | editing command => cases command <;> cases h <;> rfl
  | registering command => cases h

end Command

variable {w : Workspace} {done : Step Reply}

/-- The step lemma for all commands that do not use a tokenizer. -/
theorem step_builds {command : Command} (hidle : command.use? = none)
    (hstep : step w command = .ok done) : Builds w command.target? done := by
  cases command with
  | registering command => exact builds_registering hstep
  | analysis command =>
    cases command with
    | equip target i =>
      obtain rfl := Except.ok.inj hstep
      exact ⟨.refl w.shelf, ⟨0, [], Nat.zero_le _, rfl⟩, .inr ⟨target, i, rfl, rfl⟩⟩
    | getContext | lastRow | inspect =>
      obtain ⟨i, -, hstep⟩ := bind_eq_ok_iff.1 hstep
      obtain rfl := pure_eq_ok_iff.1 hstep
      exact .answer w _ _
    | analyze | tokenize | setContext | takeContext => cases hidle
  | editing command =>
    cases command with
    | empty target =>
      obtain rfl := Except.ok.inj hstep
      exact .of_events [] (.refl w.shelf) rfl rfl
    | copy document target =>
      obtain ⟨d, -, hstep⟩ := bind_eq_ok_iff.1 hstep
      obtain rfl := pure_eq_ok_iff.1 hstep
      exact .of_events [] (.refl w.shelf) rfl rfl
    | sameLines left right =>
      obtain ⟨d, -, hstep⟩ := bind_eq_ok_iff.1 hstep
      obtain ⟨d', -, hstep⟩ := bind_eq_ok_iff.1 hstep
      obtain rfl := pure_eq_ok_iff.1 hstep
      exact .answer w _ _
    | inRange document index range =>
      obtain ⟨d, -, hstep⟩ := bind_eq_ok_iff.1 hstep
      obtain rfl := pure_eq_ok_iff.1 hstep
      exact .answer w _ _
    | ofText | ofLines | update => cases hidle

theorem step_constructions_le {command : Command} (hstep : step w command = .ok done) :
    Signal.constructions done.signals ≤ command.target?.toList.length := by
  cases huse : command.use? with
  | none =>
    obtain ⟨runs, events, hruns, hsignals⟩ := (step_builds huse hstep).signals_eq
    rw [hsignals, Signal.constructions_ofBuilding]
    exact hruns
  | some p =>
    rw [Command.eq_of_use? huse] at hstep
    obtain ⟨i, job, i', -, -, hrun, -⟩ := step_use hstep
    exact (Job.constructions_of_run hrun).trans_le (Nat.zero_le _)

/-- The run: each command is answered with at most the one construction that it asks for. -/
theorem run_constructions_le {commands : List Command} {replies : List (Reply × List Signal)}
    {result : Except Halt Workspace} (hrun : run w commands = (replies, result))
    {command : Command} {answer : Reply × List Signal}
    (hmem : (command, answer) ∈ commands.zip replies) :
    Signal.constructions answer.2 ≤ command.target?.toList.length := by
  induction commands generalizing w replies with
  | nil => simp at hmem
  | cons first rest ih =>
    cases hstep : step w first with
    | error halt =>
      rw [run_cons_of_error hstep] at hrun
      obtain ⟨rfl, -⟩ := Prod.mk.inj hrun
      simp at hmem
    | ok done =>
      rw [run_cons_of_ok hstep] at hrun
      obtain ⟨rfl, hresult⟩ := Prod.mk.inj hrun
      rcases List.mem_cons.1 hmem with heq | hmem
      · obtain ⟨rfl, rfl⟩ := Prod.mk.inj heq
        exact step_constructions_le hstep
      · exact ih (Prod.ext rfl hresult) hmem

end Linewise.Session
