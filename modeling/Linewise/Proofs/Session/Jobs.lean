import Linewise.Proofs.Session.Resolving

/-! What a job does to a tokenizer: first it may set the context, and only then does it analyze. Whatever
a grammar is told of contexts, it is told by that. -/
namespace Linewise

namespace Signal

def OfAnalysis : Signal → Prop
  | .entered | .observed _ | .logged (.analysis _ _) => True
  | .contextSet _ _ | .constructed | .logged _ => False

variable {signals : List Signal}

theorem changes_ofAnalysis (h : ∀ signal ∈ signals, signal.OfAnalysis) : changes signals = [] := by
  unfold changes
  rw [List.filterMap_eq_nil_iff]
  intro signal hsignal
  have hanalysis := h signal hsignal
  cases signal with
  | contextSet label context => exact hanalysis.elim
  | entered | observed | constructed | logged => rfl

theorem constructions_ofAnalysis (h : ∀ signal ∈ signals, signal.OfAnalysis) :
    constructions signals = 0 := by
  unfold constructions
  rw [List.count_eq_zero]
  intro hmem
  exact h _ hmem

end Signal

namespace Instance

/-- The label of the grammar that is told when the context of the tokenizer is set from outside. -/
def listener? : Instance → Option String
  | .engine e => (e.grammar.filter Grammar.listens).map Grammar.label
  | .plain _ | .table _ _ => none

theorem signals_setContext (context : Option Context) (i : Instance) :
    (i.setContext context).2 = (i.listener?.map fun label => .contextSet label context).toList := by
  cases i with
  | plain p => rfl
  | table t row => rfl
  | engine e =>
    simp only [setContext, Engine.setContext, listener?]
    cases e.grammar with
    | none => rfl
    | some g => cases h : g.listens <;> simp [Option.filter, h]

theorem signals_analyze {i j : Instance} {segment : Segment} {kind : Kind} {offset : Offset}
    {signals : List Signal} (h : i.analyze segment kind offset = .ok (j, signals)) :
    ∀ signal ∈ signals, signal.OfAnalysis := by
  cases i with
  | plain p =>
    obtain ⟨p', -, h⟩ := bind_eq_ok_iff.1 h
    obtain ⟨-, rfl⟩ := Prod.mk.inj (pure_eq_ok_iff.1 h)
    simp
  | table t row =>
    obtain ⟨-, rfl⟩ := Prod.mk.inj (Except.ok.inj h)
    simp [Signal.OfAnalysis]
  | engine e =>
    obtain ⟨⟨e', signals'⟩, hrun, h⟩ := bind_eq_ok_iff.1 h
    obtain ⟨-, rfl⟩ := Prod.mk.inj (pure_eq_ok_iff.1 h)
    obtain ⟨stop, -, hrun⟩ := bind_eq_ok_iff.1 hrun
    dsimp only at hrun
    split at hrun
    next =>
      obtain ⟨-, rfl⟩ := Prod.mk.inj (pure_eq_ok_iff.1 hrun)
      simp [Signal.OfAnalysis]
    next g _ =>
      obtain ⟨⟨out, notes⟩, -, hrun⟩ := bind_eq_ok_iff.1 hrun
      obtain ⟨-, rfl⟩ := Prod.mk.inj (pure_eq_ok_iff.1 hrun)
      simp [Signal.OfAnalysis]

end Instance

namespace Traced

/-- The tokenizer without its context, which is taken in silence. -/
def take (t : Traced) : Traced := ⟨t.current.takeContext.2, t.signals⟩

/-- The same state twice, where nothing but analyses has been signalled after `base`. -/
structure Beyond (base : List Signal) (s s' : Traced) : Prop where
  eq : s' = s
  signals_eq : ∃ later, s.signals = base ++ later ∧ ∀ signal ∈ later, signal.OfAnalysis

theorem mirror_beyond (base : List Signal) : Mirror tokenizer tokenizer (Beyond base) where
  analyze := by
    rintro segment kind offset s s' row s₁ ⟨rfl, later, hsignals, hlater⟩ hrun
    refine ⟨s₁, hrun, rfl, ?_⟩
    obtain ⟨⟨i, signals⟩, hanalyze, hrun⟩ := bind_eq_ok_iff.1 hrun
    obtain ⟨-, rfl⟩ := Prod.mk.inj (pure_eq_ok_iff.1 hrun)
    refine ⟨later ++ signals, ?_, ?_⟩
    · rw [hsignals, List.append_assoc]
    · exact List.forall_mem_append.2 ⟨hlater, Instance.signals_analyze hanalyze⟩
  context := by
    rintro s s' ⟨rfl, -⟩
    rfl

end Traced

namespace Session

namespace Job

variable {σ τ : Type}

/-- The context that is set for the job before anything is analyzed. What a grammar writes, what is
taken away and what an update leaves as it is are not among it. -/
def told? : Job → Option (Option Context)
  | .setContext context => some context
  | .tokenize _ | .ofText _ | .ofLines _ => some none
  | .update d texts index => d.restart? texts index
  | .analyze _ _ _ | .takeContext => none

def perform (t : Tokenizer σ) (take : σ → σ) (s : σ) : Job → Except Fault σ
  | .ofText text => do return (← Document.ofText t text s).2
  | .ofLines texts => do return (← Document.ofLines t texts s).2
  | .update d texts index => do return (← d.update t texts index s).2
  | .tokenize text => do return (← t.tokenize text s).2
  | .analyze segment initial offset => do return (← t.analyze segment initial offset s).2
  | .setContext context => .ok (t.setContext context s)
  | .takeContext => .ok (take s)

variable {t : Tokenizer σ} {u : Tokenizer τ} {related : σ → τ → Prop}

/-- If the tokenizers are in related states once the context is set, they are so after the job. -/
theorem perform_mirror (h : Mirror t u related) {take : σ → σ} {take' : τ → τ}
    (htake : ∀ {s : σ} {s' : τ}, related s s' → related (take s) (take' s')) (job : Job) {s s₁ : σ}
    {s' : τ} (hs : related (t.tell job.told? s) (u.tell job.told? s'))
    (hrun : job.perform t take s = .ok s₁) :
    ∃ s₁', job.perform u take' s' = .ok s₁' ∧ related s₁ s₁' := by
  have hmirrors {α : Type} {before : σ → τ → Prop} {operation : σ → Except Fault (α × σ)}
      {mirrored : τ → Except Fault (α × τ)} (h : Mirrors before related operation mirrored)
      (hs : before s s') (hrun : (do return (← operation s).2) = Except.ok s₁) :
      ∃ s₁', (do return (← mirrored s').2) = Except.ok s₁' ∧ related s₁ s₁' := by
    obtain ⟨⟨a, s₂⟩, hoperation, hrun⟩ := bind_eq_ok_iff.1 hrun
    obtain rfl := pure_eq_ok_iff.1 hrun
    obtain ⟨s₂', hmirrored, h₂⟩ := h hs hoperation
    exact ⟨s₂', bind_eq_ok_iff.2 ⟨_, hmirrored, rfl⟩, h₂⟩
  cases job with
  | ofText text => exact hmirrors (h.build _ _) hs hrun
  | ofLines texts => exact hmirrors (h.build _ _) hs hrun
  | update d texts index => exact hmirrors (h.update d texts index) hs hrun
  | tokenize text => exact hmirrors (h.tokenize text) hs hrun
  | analyze segment initial offset => exact hmirrors (h.analyze segment initial offset) hs hrun
  | setContext context =>
    obtain rfl := Except.ok.inj hrun
    exact ⟨_, rfl, hs⟩
  | takeContext =>
    obtain rfl := Except.ok.inj hrun
    exact ⟨_, rfl, htake hs⟩

variable {i i' : Instance} {answer : Answer}

theorem perform_of_run {job : Job} (h : job.run i = .ok (answer, i')) :
    job.perform Traced.tokenizer Traced.take (.start i) = .ok ⟨i', answer.signals⟩ := by
  have hdocument {operation : Traced → Except Fault (Document × Traced)}
      (h : answerDocument operation i = .ok (answer, i')) :
      (do return (← operation (.start i)).2) = Except.ok (Traced.mk i' answer.signals) := by
    obtain ⟨⟨d, t⟩, hrun, h⟩ := bind_eq_ok_iff.1 h
    obtain ⟨rfl, rfl⟩ := Prod.mk.inj (pure_eq_ok_iff.1 h)
    exact bind_eq_ok_iff.2 ⟨_, hrun, rfl⟩
  cases job with
  | ofText text => exact hdocument h
  | ofLines texts => exact hdocument h
  | update d texts index => exact hdocument h
  | tokenize text =>
    obtain ⟨⟨tokens, t⟩, hrun, h⟩ := bind_eq_ok_iff.1 h
    obtain ⟨rfl, rfl⟩ := Prod.mk.inj (pure_eq_ok_iff.1 h)
    exact bind_eq_ok_iff.2 ⟨_, hrun, rfl⟩
  | analyze segment initial offset =>
    obtain ⟨⟨row, t⟩, hrun, h⟩ := bind_eq_ok_iff.1 h
    obtain ⟨rfl, rfl⟩ := Prod.mk.inj (pure_eq_ok_iff.1 h)
    exact bind_eq_ok_iff.2 ⟨_, hrun, rfl⟩
  | setContext context =>
    obtain ⟨rfl, rfl⟩ := Prod.mk.inj (Except.ok.inj h)
    rfl
  | takeContext =>
    obtain ⟨rfl, rfl⟩ := Prod.mk.inj (Except.ok.inj h)
    rfl

/-- What is signalled for the job is that the context is set, if it is, and then only analyses. -/
theorem signals_of_run {job : Job} (h : job.run i = .ok (answer, i')) :
    ∃ later, answer.signals = (Traced.tokenizer.tell job.told? (.start i)).signals ++ later ∧
      ∀ signal ∈ later, signal.OfAnalysis := by
  let told := Traced.tokenizer.tell job.told? (.start i)
  have hstart : Traced.Beyond told.signals told told := ⟨rfl, [], by simp⟩
  have htake : ∀ {s s' : Traced}, Traced.Beyond told.signals s s' →
      Traced.Beyond told.signals s.take s'.take := by
    rintro s s' ⟨rfl, hsignals⟩
    exact ⟨rfl, hsignals⟩
  obtain ⟨_, _, hend⟩ :=
    job.perform_mirror (Traced.mirror_beyond told.signals) htake hstart (perform_of_run h)
  exact hend.signals_eq

def report? (i : Instance) (job : Job) : Option (String × Option Context) := do
  return (← i.listener?, ← job.told?)

theorem signals_tell (i : Instance) (told? : Option (Option Context)) :
    (Traced.tokenizer.tell told? (.start i)).signals =
      (told?.bind fun context => i.listener?.map fun label => .contextSet label context).toList := by
  cases told? with
  | none => rfl
  | some context =>
    show [] ++ (i.setContext context).2 = _
    rw [List.nil_append, Instance.signals_setContext]
    rfl

theorem changes_of_run {job : Job} (h : job.run i = .ok (answer, i')) :
    Signal.changes answer.signals = (job.report? i).toList := by
  obtain ⟨later, hsignals, hlater⟩ := signals_of_run h
  rw [hsignals, Signal.changes_append, Signal.changes_ofAnalysis hlater, signals_tell, report?]
  cases job.told? <;> cases i.listener? <;> rfl

theorem constructions_of_run {job : Job} (h : job.run i = .ok (answer, i')) :
    Signal.constructions answer.signals = 0 := by
  obtain ⟨later, hsignals, hlater⟩ := signals_of_run h
  rw [hsignals, Signal.constructions_append, Signal.constructions_ofAnalysis hlater, signals_tell]
  cases job.told? <;> cases i.listener? <;> rfl

end Job
end Session
end Linewise
