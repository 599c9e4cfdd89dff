import Linewise.Proofs.Grammar
import Linewise.Proofs.Tokenizer.Restart
import Linewise.Session

/-! One tokenizer in use for many documents. What comes of the operations on a document, and of a text
that is tokenized, is what would come of them alone on a fresh tokenizer. -/
namespace Linewise

namespace Workspace

theorem drive_eq_ok_iff {α : Type} {w : Workspace} {m : String}
    {operation : Traced → Except Fault (α × Traced)} {done : Step α} :
    w.drive m operation = .ok done ↔ ∃ j a t, w.tokenizer m = .ok j ∧
      operation (.start j) = .ok (a, t) ∧ done = ⟨a, t.signals, w.putTokenizer m t.current⟩ := by
  simp only [drive, bind_eq_ok_iff]
  constructor
  · rintro ⟨j, hj, hrun⟩
    split at hrun
    next a t ht => exact ⟨j, a, t, hj, ht, (pure_eq_ok_iff.1 hrun).symm⟩
    next => cases hrun
  · rintro ⟨j, a, t, hj, ht, rfl⟩
    exact ⟨j, hj, by rw [ht]; rfl⟩

@[simp] theorem tokenizer_putTokenizer (w : Workspace) (m : String) (j : Instance) :
    (w.putTokenizer m j).tokenizer m = .ok j := by
  simp [tokenizer, putTokenizer, orMissing]

@[simp] theorem tokenizer_putDocument (w : Workspace) (document m : String) (d : Document) :
    (w.putDocument document d).tokenizer m = w.tokenizer m := rfl

theorem documents_putDocument_of_ne {w : Workspace} {target document : String} {d : Document}
    (h : target ≠ document) :
    (w.putDocument target d).documents[document]? = w.documents[document]? := by
  simp [putDocument, Std.TreeMap.getElem?_insert, h]

@[simp] theorem documents_putDocument_self (w : Workspace) (target : String) (d : Document) :
    (w.putDocument target d).documents[target]? = some d := by
  simp [putDocument]

end Workspace

namespace Session

inductive Use where
  | ofText (target text : String)
  | ofLines (target : String) (texts : List String)
  | update (document : String) (texts : List String) (index : Nat)
  | tokenize (text : String)
  | analyze (segment : Segment) (initial : Kind) (offset : Offset)
  | setContext (context : Option Context)
  | takeContext

namespace Use

def command (m : String) : Use → Command
  | .ofText target text => .editing (.ofText m text target)
  | .ofLines target texts => .editing (.ofLines m texts target)
  | .update document texts index => .editing (.update document m texts index)
  | .tokenize text => .analysis (.tokenize m text)
  | .analyze segment initial offset => .analysis (.analyze m segment initial offset)
  | .setContext context => .analysis (.setContext m context)
  | .takeContext => .analysis (.takeContext m)

def document? : Use → Option String
  | .ofText document _ | .ofLines document _ | .update document _ _ => some document
  | .tokenize _ | .analyze _ _ _ | .setContext _ | .takeContext => none

end Use

theorem run_cons_eq_ok_iff {w w' : Workspace} {command : Command} {commands : List Command}
    {replies : List (Reply × List Signal)} :
    run w (command :: commands) = (replies, .ok w') ↔
      ∃ done rest, step w command = .ok done ∧ run done.workspace commands = (rest, .ok w') ∧
        replies = (done.reply, done.signals) :: rest := by
  rw [run]
  cases step w command with
  | error halt => simp
  | ok done => simp [Prod.ext_iff, and_comm, eq_comm]

theorem store_eq_ok_iff {w : Workspace} {m target : String}
    {operation : Traced → Except Fault (Document × Traced)} {done : Step Reply} :
    EditingCommand.store w m target operation = .ok done ↔ ∃ j d t, w.tokenizer m = .ok j ∧
      operation (.start j) = .ok (d, t) ∧ done = ⟨.lines d.lines, t.signals,
        (w.putTokenizer m t.current).putDocument target d⟩ := by
  simp only [EditingCommand.store, bind_eq_ok_iff, Workspace.drive_eq_ok_iff, pure_eq_ok_iff]
  constructor
  · rintro ⟨-, ⟨j, d, t, hj, ht, rfl⟩, rfl⟩
    exact ⟨j, d, t, hj, ht, rfl⟩
  · rintro ⟨j, d, t, hj, ht, rfl⟩
    exact ⟨_, ⟨j, d, t, hj, ht, rfl⟩, rfl⟩

def MadeLike (i : Instance) (m : String) (w : Workspace) : Prop :=
  ∃ j, w.tokenizer m = .ok j ∧ j.fresh = i.fresh

theorem MadeLike.fresh_eq {i j : Instance} {m : String} {w : Workspace} (h : MadeLike i m w)
    (hj : w.tokenizer m = .ok j) : j.fresh = i.fresh := by
  obtain ⟨j', hj', hfresh⟩ := h
  rw [← Except.ok.inj (hj'.symm.trans hj)]
  exact hfresh

/-- Besides, the document is the same in both workspaces. -/
structure Alike (i : Instance) (m document : String) (w v : Workspace) : Prop where
  left : MadeLike i m w
  right : MadeLike i m v
  document_eq : w.documents[document]? = v.documents[document]?

variable {i : Instance} {m document : String} {w v : Workspace}

/-- A document that is made of the same on both sides comes out the same, with the same signals. -/
theorem store_alike {operation : Traced → Except Fault (Document × Traced)}
    (hagrees : Agrees (Traced.Alike i) (Traced.Alike i) operation) (hw : MadeLike i m w)
    (hv : MadeLike i m v) {done : Step Reply}
    (hstep : EditingCommand.store w m document operation = .ok done) :
    ∃ done', EditingCommand.store v m document operation = .ok done' ∧ done'.reply = done.reply ∧
      done'.signals = done.signals ∧ Alike i m document done.workspace done'.workspace := by
  obtain ⟨j, d, t, hj, hrun, rfl⟩ := store_eq_ok_iff.1 hstep
  obtain ⟨j', hj', hfresh'⟩ := hv
  have hstart : Traced.Alike i (.start j) (.start j') := ⟨hw.fresh_eq hj, hfresh', rfl⟩
  obtain ⟨t', hrun', ht⟩ := hagrees hstart hrun
  refine ⟨_, store_eq_ok_iff.2 ⟨j', d, t', hj', hrun', rfl⟩, rfl, ht.signals_eq.symm, ?_⟩
  refine ⟨⟨t.current, ?_, ht.left⟩, ⟨t'.current, ?_, ht.right⟩, ?_⟩
  · simp
  · simp
  · simp

/-- The operations on one document agree step by step. -/
theorem step_alike (h : Alike i m document w v) {u : Use} (hu : u.document? = some document)
    {done : Step Reply} (hstep : step w (u.command m) = .ok done) :
    ∃ done', step v (u.command m) = .ok done' ∧ done'.reply = done.reply ∧
      done'.signals = done.signals ∧ Alike i m document done.workspace done'.workspace := by
  have hresets := Traced.resets i
  cases u with
  | ofText target text =>
    obtain rfl := Option.some.inj hu
    exact store_alike (hresets.ofText text) h.left h.right hstep
  | ofLines target texts =>
    obtain rfl := Option.some.inj hu
    exact store_alike (hresets.ofLines texts) h.left h.right hstep
  | update target texts index =>
    obtain rfl := Option.some.inj hu
    obtain ⟨d, hd, hstore⟩ := bind_eq_ok_iff.1 hstep
    have hd' : v.document target = .ok d := by
      rw [← hd, Workspace.document, Workspace.document, h.document_eq]
    obtain ⟨done', hdone', hsame⟩ :=
      store_alike (hresets.update d texts index) h.left h.right hstore
    exact ⟨done', bind_eq_ok_iff.2 ⟨d, hd', hdone'⟩, hsame⟩
  | tokenize text => cases hu
  | analyze segment initial offset => cases hu
  | setContext context => cases hu
  | takeContext => cases hu

theorem drive_madeLike {α : Type} {operation : Traced → Except Fault (α × Traced)}
    (hkeeps : ∀ {t t' : Traced} {a : α}, operation t = .ok (a, t') → t.current.fresh = i.fresh →
      t'.current.fresh = i.fresh) (h : MadeLike i m w) {done : Step α}
    (hstep : w.drive m operation = .ok done) :
    MadeLike i m done.workspace ∧ done.workspace.documents = w.documents := by
  obtain ⟨j, a, t, hj, hrun, rfl⟩ := Workspace.drive_eq_ok_iff.1 hstep
  have hfresh := hkeeps hrun (h.fresh_eq hj)
  exact ⟨⟨t.current, Workspace.tokenizer_putTokenizer w m t.current, hfresh⟩, rfl⟩

theorem store_frame {operation : Traced → Except Fault (Document × Traced)}
    (hagrees : Agrees (Traced.Alike i) (Traced.Alike i) operation) (h : MadeLike i m w)
    {target : String} {done : Step Reply}
    (hstep : EditingCommand.store w m target operation = .ok done) :
    MadeLike i m done.workspace ∧ ∀ {document : String}, some target ≠ some document →
      done.workspace.documents[document]? = w.documents[document]? := by
  obtain ⟨step, hdrive, hdone⟩ := bind_eq_ok_iff.1 hstep
  obtain rfl := pure_eq_ok_iff.1 hdone
  have hkeeps : ∀ {t t' : Traced} {d : Document}, operation t = .ok (d, t') →
      t.current.fresh = i.fresh → t'.current.fresh = i.fresh := by
    intro t t' d hrun hfresh
    obtain ⟨t₁, -, halike⟩ := hagrees ⟨hfresh, hfresh, rfl⟩ hrun
    exact halike.left
  obtain ⟨hmade, hdocuments⟩ := drive_madeLike hkeeps h hdrive
  refine ⟨hmade, ?_⟩
  intro document hne
  have hother : target ≠ document := fun heq => hne (congrArg some heq)
  rw [Workspace.documents_putDocument_of_ne hother, hdocuments]

/-- No use makes a different tokenizer of it, and a use for one document leaves the others alone. -/
theorem step_frame (h : MadeLike i m w) {u : Use} {done : Step Reply}
    (hstep : step w (u.command m) = .ok done) :
    MadeLike i m done.workspace ∧ ∀ {document : String}, u.document? ≠ some document →
      done.workspace.documents[document]? = w.documents[document]? := by
  have hresets := Traced.resets i
  cases u with
  | ofText target text => exact store_frame (hresets.ofText text) h hstep
  | ofLines target texts => exact store_frame (hresets.ofLines texts) h hstep
  | update target texts index =>
    obtain ⟨d, -, hstore⟩ := bind_eq_ok_iff.1 hstep
    exact store_frame (hresets.update d texts index) h hstore
  | tokenize text =>
    simp only [Use.command, step, AnalysisCommand.step] at hstep
    refine (drive_madeLike ?_ h hstep).imp_right fun heq document _ => by rw [heq]
    intro t t' reply hrun hfresh
    obtain ⟨⟨tokens, t₁⟩, htokens, hrun⟩ := bind_eq_ok_iff.1 hrun
    obtain ⟨rfl, rfl⟩ := Prod.mk.inj (pure_eq_ok_iff.1 hrun)
    obtain ⟨t₂, -, hsame⟩ := hresets.tokenize text ⟨hfresh, hfresh, rfl⟩ htokens
    exact hsame.left
  | analyze segment initial offset =>
    simp only [Use.command, step, AnalysisCommand.step] at hstep
    refine (drive_madeLike ?_ h hstep).imp_right fun heq document _ => by rw [heq]
    intro t t' reply hrun hfresh
    obtain ⟨⟨row, t₁⟩, hrow, hrun⟩ := bind_eq_ok_iff.1 hrun
    obtain ⟨rfl, rfl⟩ := Prod.mk.inj (pure_eq_ok_iff.1 hrun)
    obtain ⟨t₂, -, hsame⟩ :=
      hresets.analyze segment initial offset ⟨⟨hfresh, hfresh, rfl⟩, rfl⟩ hrow
    exact hsame.left
  | setContext context =>
    simp only [Use.command, step, AnalysisCommand.step] at hstep
    refine (drive_madeLike ?_ h hstep).imp_right fun heq document _ => by rw [heq]
    intro t t' reply hrun hfresh
    obtain ⟨rfl, rfl⟩ := Prod.mk.inj (pure_eq_ok_iff.1 hrun)
    exact (Instance.fresh_setContext context t.current).trans hfresh
  | takeContext =>
    obtain ⟨j, hj, hstep⟩ := bind_eq_ok_iff.1 hstep
    obtain rfl := pure_eq_ok_iff.1 hstep
    refine ⟨⟨j.takeContext.2, ?_, ?_⟩, fun _ => rfl⟩
    · exact Workspace.tokenizer_putTokenizer w m j.takeContext.2
    · exact (Instance.fresh_takeContext j).trans (h.fresh_eq hj)

/-- A text that is tokenized comes out the same whatever was done with the tokenizer before. -/
theorem step_tokenize (hw : MadeLike i m w) (hv : MadeLike i m v) {text : String}
    {done : Step Reply} (hstep : step w ((Use.tokenize text).command m) = .ok done) :
    ∃ done', step v ((Use.tokenize text).command m) = .ok done' ∧ done'.reply = done.reply ∧
      done'.signals = done.signals := by
  simp only [Use.command, step, AnalysisCommand.step] at hstep ⊢
  obtain ⟨j, reply, t, hj, hrun, rfl⟩ := Workspace.drive_eq_ok_iff.1 hstep
  obtain ⟨⟨tokens, t₁⟩, htokens, hrun⟩ := bind_eq_ok_iff.1 hrun
  obtain ⟨rfl, rfl⟩ := Prod.mk.inj (pure_eq_ok_iff.1 hrun)
  obtain ⟨j', hj', hfresh'⟩ := hv
  have hstart : Traced.Alike i (.start j) (.start j') := ⟨hw.fresh_eq hj, hfresh', rfl⟩
  obtain ⟨t', htokens', hsame⟩ := (Traced.resets i).tokenize text hstart htokens
  refine ⟨_, Workspace.drive_eq_ok_iff.2 ⟨j', _, t', hj', ?_, rfl⟩, rfl, hsame.signals_eq.symm⟩
  refine bind_eq_ok_iff.2 ⟨_, htokens', ?_⟩
  rw [hsame.context_eq]
  rfl

/-- The run: the operations on one document give alone what they give among all the others. -/
theorem run_alike {w' : Workspace} {uses : List Use} {replies : List (Reply × List Signal)}
    (h : Alike i m document w v)
    (hrun : run w (uses.map fun u => u.command m) = (replies, .ok w')) :
    ∃ v', run v ((uses.filter fun u => u.document? = some document).map fun u => u.command m) =
        (((uses.zip replies).filter fun p => p.1.document? = some document).map Prod.snd, .ok v') ∧
      Alike i m document w' v' := by
  induction uses generalizing w v replies with
  | nil =>
    obtain ⟨rfl, hend⟩ := Prod.mk.inj hrun
    obtain rfl := Except.ok.inj hend
    exact ⟨v, rfl, h⟩
  | cons u uses ih =>
    obtain ⟨done, rest, hstep, hrest, rfl⟩ := run_cons_eq_ok_iff.1 hrun
    by_cases hu : u.document? = some document
    · obtain ⟨done', hstep', hreply, hsignals, h'⟩ := step_alike h hu hstep
      obtain ⟨v', hrun', hend⟩ := ih h' hrest
      refine ⟨v', ?_, hend⟩
      simp only [List.zip_cons_cons, List.filter_cons, hu, decide_true, if_true, List.map_cons]
      exact run_cons_eq_ok_iff.2 ⟨done', _, hstep', hrun', by rw [hreply, hsignals]⟩
    · obtain ⟨hmade, hframe⟩ := step_frame h.left hstep
      obtain ⟨v', hrun', hend⟩ := ih ⟨hmade, h.right, (hframe hu).trans h.document_eq⟩ hrest
      refine ⟨v', ?_, hend⟩
      simpa only [List.zip_cons_cons, List.filter_cons, hu, decide_false, Bool.false_eq_true,
        if_false] using hrun'

theorem run_tokenize {w' : Workspace} {uses : List Use} {replies : List (Reply × List Signal)}
    (hw : MadeLike i m w) (hv : MadeLike i m v)
    (hrun : run w (uses.map fun u => u.command m) = (replies, .ok w')) {text : String}
    {reply : Reply × List Signal} (hmem : (Use.tokenize text, reply) ∈ uses.zip replies) :
    ∃ v', run v [(Use.tokenize text).command m] = ([reply], .ok v') := by
  induction uses generalizing w replies with
  | nil => simp at hmem
  | cons u uses ih =>
    obtain ⟨done, rest, hstep, hrest, rfl⟩ := run_cons_eq_ok_iff.1 hrun
    rw [List.zip_cons_cons] at hmem
    rcases List.mem_cons.1 hmem with heq | hmem
    · obtain ⟨rfl, rfl⟩ := Prod.mk.inj heq
      obtain ⟨done', hstep', hreply, hsignals⟩ := step_tokenize hw hv hstep
      refine ⟨done'.workspace, run_cons_eq_ok_iff.2 ⟨done', [], hstep', rfl, ?_⟩⟩
      rw [hreply, hsignals]
    · exact ih (step_frame hw hstep).1 hrest hmem

/-- In a run that uses one tokenizer for any number of documents, in any order and with anything else
in between, the answers to the operations on a document, and the document itself, are those of a run
of these operations alone on a fresh tokenizer. So is the answer for each text that is tokenized. -/
theorem run_shared {i : Instance} {m : String} {w w' : Workspace} (hi : w.tokenizer m = .ok i)
    {uses : List Use} {replies : List (Reply × List Signal)}
    (hrun : run w (uses.map fun u => u.command m) = (replies, .ok w')) :
    (∀ {document : String} {v : Workspace}, v.tokenizer m = .ok i.fresh →
      v.documents[document]? = w.documents[document]? →
        ∃ v', run v ((uses.filter fun u => u.document? = some document).map fun u => u.command m) =
            (((uses.zip replies).filter fun p => p.1.document? = some document).map Prod.snd,
              .ok v') ∧
          v'.documents[document]? = w'.documents[document]?) ∧
    ∀ {text : String} {reply : Reply × List Signal} {v : Workspace},
      (Use.tokenize text, reply) ∈ uses.zip replies → v.tokenizer m = .ok i.fresh →
        ∃ v', run v [(Use.tokenize text).command m] = ([reply], .ok v') := by
  have hw : MadeLike i m w := ⟨i, hi, rfl⟩
  have hv {v : Workspace} (h : v.tokenizer m = .ok i.fresh) : MadeLike i m v :=
    ⟨i.fresh, h, Instance.fresh_fresh i⟩
  constructor
  · intro document v h hdocument
    obtain ⟨v', hrun', halike⟩ := run_alike ⟨hw, hv h, hdocument.symm⟩ hrun
    exact ⟨v', hrun', halike.document_eq.symm⟩
  · intro text reply v hmem h
    exact run_tokenize hw (hv h) hrun hmem

theorem run_shared_parens :
    let w := Workspace.initial.putTokenizer "t" (Grammar.Parens.tokenizer "parens" 0)
    let uses : List Use := [.ofText "a" "((\n(", .setContext (some (.nesting 7)),
      .ofLines "b" [")", "("], .tokenize "(", .update "a" ["(", "("] 0,
      .analyze (.whole "(") .text 3, .takeContext, .update "b" ["((", "("] 0]
    ∃ replies w' v₁ reply v₂, run w (uses.map fun u => u.command "t") = (replies, .ok w') ∧
      run w ((uses.filter fun u => u.document? = some "a").map fun u => u.command "t") =
        (((uses.zip replies).filter fun p => p.1.document? = some "a").map Prod.snd, .ok v₁) ∧
      v₁.documents["a"]? = w'.documents["a"]? ∧ (Use.tokenize "(", reply) ∈ uses.zip replies ∧
      run w [(Use.tokenize "(").command "t"] = ([reply], .ok v₂) := by
  intro w uses
  have hi : w.tokenizer "t" = .ok (Grammar.Parens.tokenizer "parens" 0) :=
    Workspace.tokenizer_putTokenizer ..
  have hok : (run w (uses.map fun u => u.command "t")).2.isOk = true := by decide +kernel
  have hlen : (run w (uses.map fun u => u.command "t")).1.length = 8 := by decide +kernel
  rcases hrun : run w (uses.map fun u => u.command "t") with ⟨replies, halt | w'⟩
  · rw [hrun] at hok
    cases hok
  · rw [hrun] at hlen
    have hreply : 3 < replies.length := hlen ▸ (by decide)
    have hmem : (Use.tokenize "(", replies[3]) ∈ uses.zip replies :=
      List.mem_iff_getElem?.2
        ⟨3, List.getElem?_zip_eq_some.2 ⟨rfl, List.getElem?_eq_getElem hreply⟩⟩
    have hsame : w.documents["a"]? = w.documents["a"]? := rfl
    obtain ⟨v₁, halone, hdocument⟩ := (run_shared hi hrun).1 hi hsame
    obtain ⟨v₂, htokens⟩ := (run_shared hi hrun).2 hmem hi
    exact ⟨replies, w', v₁, replies[3], v₂, hrun, halone, hdocument, hmem, htokens⟩

end Session
end Linewise
