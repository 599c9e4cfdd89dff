import Linewise.Proofs.Text.Views
import Linewise.Proofs.Tokenizer.Instances

/-! What a tokenizer is asked. For a tokenizer that knows of a segment only what it shows, it makes no
difference whether the lines come as views of one text or as texts with starts: the requests are the
same, and so are the tokens and the state in the end. -/
namespace Linewise

variable {σ : Type}

/-- In each of its `states` the tokenizer knows of a segment only the text that it shows. Anything else
may play a part in an analysis, and an analysis may fault. -/
structure ReadsText (t : Tokenizer σ) (states : σ → Prop) : Prop where
  analyze_eq : ∀ {s : σ} {segment : Segment} {text : String} (kind : Kind) (offset : Offset),
    states s → segment.Shows text →
      t.analyze segment kind offset s = t.analyze (.whole text) kind offset s
  analyze : ∀ {s s' : σ} {segment : Segment} {kind : Kind} {offset : Offset} {row : Row},
    states s → t.analyze segment kind offset s = .ok (row, s') → states s'
  reset : ∀ {s : σ}, states s → states (t.setContext none s)

/-- A request of a tokenizer, with all that the tokenizer is told. -/
inductive Request where
  | setContext (context : Option Context)
  | analyze (text : String) (kind : Kind) (offset : Offset)
  deriving DecidableEq, Repr

/-- The requests so far, and the state after them or the fault in which the last one ended. -/
structure Observed (σ : Type) where
  requests : List Request
  state : Except Fault σ

namespace Tokenizer

/-- The tokenizer under observation. Where `t` faults the run goes on to its end, but with empty rows
and with nothing asked of `t`, so that the requests up to the fault are there to be seen. -/
def observed (t : Tokenizer σ) : Tokenizer (Observed σ) where
  analyze segment kind offset o :=
    match o.state with
    | .error _ => .ok (.empty, o)
    | .ok s =>
      let requests := o.requests ++ [.analyze segment.text kind offset]
      match t.analyze segment kind offset s with
      | .ok (row, s) => .ok (row, ⟨requests, .ok s⟩)
      | .error fault => .ok (.empty, ⟨requests, .error fault⟩)
  context o :=
    match o.state with
    | .error _ => none
    | .ok s => t.context s
  setContext context o :=
    match o.state with
    | .error _ => o
    | .ok s => ⟨o.requests ++ [.setContext context], .ok (t.setContext context s)⟩

/-- One request for each line, which starts in the kind in which the line before it ended. The last one
is that of a line that faults, if any does. -/
def requests (t : Tokenizer σ) : List Segment → Kind → σ → List Request
  | [], _, _ => []
  | segment :: rest, kind, s =>
    .analyze segment.text kind (.ofNat segment.start) ::
      match t.analyze segment kind (.ofNat segment.start) s with
      | .ok (row, s) => t.requests rest row.continuation s
      | .error _ => []

variable (t : Tokenizer σ)

theorem observed_tokenizeSegments_error (segments : List Segment) (kind : Kind)
    (log : List Request) (fault : Fault) :
    ∃ tokens, t.observed.tokenizeSegments segments kind ⟨log, .error fault⟩ =
      .ok (tokens, ⟨log, .error fault⟩) := by
  induction segments generalizing kind with
  | nil => exact ⟨[], rfl⟩
  | cons segment segments ih =>
    obtain ⟨tokens, hrest⟩ := ih Row.empty.continuation
    exact ⟨_, bind_eq_ok_iff.2 ⟨(.empty, ⟨log, .error fault⟩), rfl,
      bind_eq_ok_iff.2 ⟨_, hrest, rfl⟩⟩⟩

/-- Under observation the requests are written down, and the state is that of `t`. -/
theorem observed_tokenizeSegments (segments : List Segment) (kind : Kind) (log : List Request)
    (s : σ) :
    ∃ tokens, t.observed.tokenizeSegments segments kind ⟨log, .ok s⟩ =
      .ok (tokens, ⟨log ++ t.requests segments kind s,
        (t.tokenizeSegments segments kind s).map Prod.snd⟩) := by
  induction segments generalizing kind log s with
  | nil => exact ⟨[], by rw [requests, List.append_nil]; rfl⟩
  | cons segment segments ih =>
    let request : Request := .analyze segment.text kind (.ofNat segment.start)
    cases hrun : t.analyze segment kind (.ofNat segment.start) s with
    | error fault =>
      have hfirst : t.observed.analyze segment kind (.ofNat segment.start) ⟨log, .ok s⟩ =
          .ok (.empty, ⟨log ++ [request], .error fault⟩) := by
        simp only [observed, hrun, request]
      obtain ⟨tokens, hrest⟩ :=
        t.observed_tokenizeSegments_error segments Row.empty.continuation (log ++ [request]) fault
      refine ⟨Row.empty.tokens ++ tokens,
        bind_eq_ok_iff.2 ⟨_, hfirst, bind_eq_ok_iff.2 ⟨_, hrest, ?_⟩⟩⟩
      simp only [requests, tokenizeSegments, hrun]
      rfl
    | ok result =>
      obtain ⟨row, s₁⟩ := result
      have hfirst : t.observed.analyze segment kind (.ofNat segment.start) ⟨log, .ok s⟩ =
          .ok (row, ⟨log ++ [request], .ok s₁⟩) := by
        simp only [observed, hrun, request]
      obtain ⟨tokens, hrest⟩ := ih row.continuation (log ++ [request]) s₁
      have hrequests : t.requests (segment :: segments) kind s =
          request :: t.requests segments row.continuation s₁ := by
        simp only [requests, hrun, request]
      have hstate : (t.tokenizeSegments (segment :: segments) kind s).map Prod.snd =
          (t.tokenizeSegments segments row.continuation s₁).map Prod.snd := by
        simp only [tokenizeSegments, hrun, bind, Except.bind]
        cases t.tokenizeSegments segments row.continuation s₁ <;> rfl
      refine ⟨row.tokens ++ tokens,
        bind_eq_ok_iff.2 ⟨_, hfirst, bind_eq_ok_iff.2 ⟨_, hrest, ?_⟩⟩⟩
      rw [hrequests, hstate, List.append_assoc]
      rfl

end Tokenizer

namespace ReadsText

variable {t : Tokenizer σ} {states : σ → Prop}

/-- Observation does not change what the tokenizer knows. -/
theorem observed (ht : ReadsText t states) :
    ReadsText t.observed fun o => ∀ s, o.state = .ok s → states s where
  analyze_eq := by
    intro o segment text kind offset ho hshows
    obtain ⟨log, state⟩ := o
    cases state with
    | error fault => rfl
    | ok s =>
      have htext : segment.text = (Segment.whole text).text := by
        rw [hshows.text_eq, (Segment.shows_whole text).text_eq]
      simp only [Tokenizer.observed, htext, ht.analyze_eq kind offset (ho s rfl) hshows]
  analyze := by
    intro o o' segment kind offset row ho hrun s' hs'
    obtain ⟨log, state⟩ := o
    cases state with
    | error fault =>
      obtain ⟨-, rfl⟩ := Prod.mk.inj (Except.ok.inj hrun)
      cases hs'
    | ok s =>
      simp only [Tokenizer.observed] at hrun
      split at hrun
      next row s₁ hanalyze =>
        obtain ⟨-, rfl⟩ := Prod.mk.inj (Except.ok.inj hrun)
        obtain rfl := Except.ok.inj hs'
        exact ht.analyze (ho s rfl) hanalyze
      next fault hanalyze =>
        obtain ⟨-, rfl⟩ := Prod.mk.inj (Except.ok.inj hrun)
        cases hs'
  reset := by
    intro o ho s' hs'
    obtain ⟨log, state⟩ := o
    cases state with
    | error fault => cases hs'
    | ok s =>
      obtain rfl := Except.ok.inj hs'
      exact ht.reset (ho s rfl)

/-- The run: consecutive lines give the same tokens and the same state, or the same fault, whether they
come as texts with starts or as views. -/
theorem lines_eq_tokenizeSegments (ht : ReadsText t states) {segments : List Segment}
    (hshow : ∀ g ∈ segments, g.Shows g.text) {s : σ} (hs : states s) (kind : Kind) :
    (t.lines (segments.map fun g => (g.text, .ofNat g.start)) kind s).map
      (fun p => (p.1.flatMap Line.tokens, p.2)) = t.tokenizeSegments segments kind s := by
  induction segments generalizing s kind with
  | nil => rfl
  | cons g segments ih =>
    have hfirst := ht.analyze_eq kind (.ofNat g.start) hs (hshow g List.mem_cons_self)
    simp only [List.map_cons, Tokenizer.lines, Tokenizer.line, Tokenizer.tokenizeSegments, hfirst]
    cases hrun : t.analyze (.whole g.text) kind (.ofNat g.start) s with
    | error fault => rfl
    | ok result =>
      obtain ⟨row, s₁⟩ := result
      have hrest := ih (fun g' hg' => hshow g' (List.mem_cons_of_mem g hg')) (ht.analyze hs hrun)
        row.continuation
      simp only [bind, Except.bind, pure, Except.pure, Line.ofRow, ← hrest]
      cases t.lines (segments.map fun g => (g.text, .ofNat g.start)) row.continuation s₁ <;> rfl

/-- Where no line faults there is a request for each. -/
theorem requests_eq_of_lines (ht : ReadsText t states) {segments : List Segment}
    (hshow : ∀ g ∈ segments, g.Shows g.text) {s s' : σ} (hs : states s) {kind : Kind}
    {lines : List Line}
    (hrun : t.lines (segments.map fun g => (g.text, .ofNat g.start)) kind s = .ok (lines, s')) :
    t.requests segments kind s =
      List.zipWith (fun g kind => .analyze g.text kind (.ofNat g.start)) segments
        (kind :: lines.map Line.continuation) := by
  induction segments generalizing s kind lines with
  | nil => rfl
  | cons g segments ih =>
    obtain ⟨⟨line, s₁⟩, hline, hrun⟩ := bind_eq_ok_iff.1 hrun
    obtain ⟨⟨others, s₂⟩, hothers, hrun⟩ := bind_eq_ok_iff.1 hrun
    obtain ⟨rfl, rfl⟩ := Prod.mk.inj (pure_eq_ok_iff.1 hrun)
    obtain ⟨⟨row, s₁'⟩, hanalyze, hline⟩ := bind_eq_ok_iff.1 hline
    obtain ⟨rfl, rfl⟩ := Prod.mk.inj (pure_eq_ok_iff.1 hline)
    have hrest := ih (fun g' hg' => hshow g' (List.mem_cons_of_mem g hg'))
      (ht.analyze hs hanalyze) hothers
    rw [Tokenizer.requests, ht.analyze_eq kind _ hs (hshow g List.mem_cons_self), hanalyze]
    exact congrArg (List.cons (.analyze g.text kind (.ofNat g.start))) hrest

end ReadsText

def Grammar.ReadsText (g : Grammar) : Prop :=
  ∀ {segment : Segment} {text : String}, segment.Shows text → g.emit segment = g.emit (.whole text)

namespace Instance

/-- Only a grammar could look at what is around the segment. -/
def ReadsText : Instance → Prop
  | .plain _ | .table _ _ => True
  | .engine e => ∀ g, e.grammar = some g → g.ReadsText

theorem ReadsText.analyze_eq {i : Instance} (h : i.ReadsText) {segment : Segment} {text : String}
    (hshows : segment.Shows text) (kind : Kind) (offset : Offset) :
    i.analyze segment kind offset = i.analyze (.whole text) kind offset := by
  have hsize : segment.size = (Segment.whole text).size := by
    rw [hshows.size_eq, (Segment.shows_whole text).size_eq]
  have hempty : segment.isEmpty = (Segment.whole text).isEmpty := by
    rw [hshows.isEmpty_eq, (Segment.shows_whole text).isEmpty_eq]
  cases i with
  | plain p => simp only [analyze, Plain.analyze, hsize, hempty]
  | engine e =>
    simp only [analyze, Engine.analyze, Engine.emitter, hsize, hempty]
    cases hg : e.grammar with
    | none => rfl
    | some g => simp only [h g hg hshows]
  | table t row =>
    have htext : segment.text = (Segment.whole text).text := by
      rw [hshows.text_eq, (Segment.shows_whole text).text_eq]
    simp only [analyze, Table.analyze, htext, hsize]

theorem readsText_of_fresh {i j : Instance} (hfresh : j.fresh = i.fresh) (h : i.ReadsText) :
    j.ReadsText := by
  cases j with
  | plain p => trivial
  | table t row => trivial
  | engine e =>
    obtain ⟨e', rfl, hgrammar, -⟩ := eq_engine_of_fresh hfresh.symm
    intro g hg
    exact h g (hgrammar.trans hg)

theorem ReadsText.traced {i : Instance} (h : i.ReadsText) :
    Linewise.ReadsText Traced.tokenizer fun s => s.current.fresh = i.fresh where
  analyze_eq := by
    intro s segment text kind offset hs hshows
    simp only [Traced.tokenizer, (readsText_of_fresh hs h).analyze_eq hshows kind offset]
  analyze := by
    intro s s' segment kind offset row hs hrun
    obtain ⟨⟨j, signals⟩, hanalyze, hrun⟩ := bind_eq_ok_iff.1 hrun
    obtain ⟨-, rfl⟩ := Prod.mk.inj (pure_eq_ok_iff.1 hrun)
    exact (fresh_analyze hanalyze).trans hs
  reset := fun {s} hs => (fresh_setContext none s.current).trans hs

end Instance
end Linewise
