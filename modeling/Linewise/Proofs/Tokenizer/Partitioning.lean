import Linewise.Proofs.Tokenizer.Instances
import Linewise.Proofs.Tokenizer.Partition

/-! Calls whose tokens follow each other without a gap, tokenizers whose tokens partition each line, and
the tokens that they make of consecutive lines. -/
namespace Linewise

namespace Call

/-- The tokens lie end to end from `pos` to `stop`, and no call fails. -/
def Contiguous (stop : Nat) : Nat → List Call → Prop
  | pos, [] => pos = stop
  | pos, .token first last _ _ :: calls => first = pos ∧ first ≤ last ∧ Contiguous stop last calls
  | pos, .endNull :: calls | pos, .setContext _ :: calls => Contiguous stop pos calls
  | _, .fail _ :: _ => False

variable {calls : List Call} {pos stop : Nat}

theorem Contiguous.le (h : Contiguous stop pos calls) : pos ≤ stop := by
  induction calls generalizing pos with
  | nil => exact Nat.le_of_eq h
  | cons call calls ih =>
    cases call with
    | token first last kind nesting =>
      obtain ⟨rfl, hord, hrest⟩ := h
      exact Nat.le_trans hord (ih hrest)
    | endNull => exact ih h
    | setContext context => exact ih h
    | fail message => exact h.elim

theorem Contiguous.within (h : Contiguous stop pos calls) : ∀ call ∈ calls, call.Within stop := by
  induction calls generalizing pos with
  | nil => exact fun call hcall => (List.not_mem_nil hcall).elim
  | cons call calls ih =>
    cases call with
    | token first last kind nesting =>
      obtain ⟨rfl, hord, hrest⟩ := h
      exact List.forall_mem_cons.2 ⟨⟨hord, hrest.le⟩, ih hrest⟩
    | endNull => exact List.forall_mem_cons.2 ⟨trivial, ih h⟩
    | setContext context => exact List.forall_mem_cons.2 ⟨trivial, ih h⟩
    | fail message => exact h.elim

theorem Contiguous.isPartition (h : Contiguous stop pos calls) {o : Offset}
    (hfit : o.toNat + stop < UInt64.size) :
    isPartition ⟨.ofNat pos + o, .ofNat stop + o⟩
      ((calls.filterMap token?).map fun t => t.shift o) = true := by
  induction calls generalizing pos with
  | nil =>
    obtain rfl : pos = stop := h
    simp [Linewise.isPartition]
  | cons call calls ih =>
    cases call with
    | token first last kind nesting =>
      have hfits := token?_fits (h.within _ List.mem_cons_self) (by omega) rfl
      have hordered := Span.ordered_shift hfits.1 (o := o) (by omega)
      obtain ⟨rfl, -, hrest⟩ := h
      exact isPartition_cons_iff.2 ⟨rfl, hordered, ih hrest⟩
    | endNull => exact ih h
    | setContext context => exact ih h
    | fail message => exact h.elim

end Call

variable {σ : Type}

/-- In each of its `states` the tokenizer analyzes every line that ends within the offsets, and its
tokens partition the line. -/
structure Partitions (t : Tokenizer σ) (states : σ → Prop) : Prop where
  analyze : ∀ {s : σ} {segment : Segment} {text : String} (kind : Kind) {offset : Offset},
    states s → segment.Shows text → offset.toNat + segment.size < UInt64.size →
      ∃ row s', t.analyze segment kind offset s = .ok (row, s') ∧ states s' ∧
        isPartition ⟨offset, .ofNat segment.size + offset⟩ row.tokens = true
  reset : ∀ {s : σ}, states s → states (t.setContext none s)

def Segment.span (s : Segment) : Span := ⟨.ofNat s.start, .ofNat s.stop⟩

abbrev PartitionEach (segments : List Segment) (parts : List (List Token)) : Prop :=
  List.Forall₂ (fun segment tokens => isPartition segment.span tokens = true) segments parts

def Segment.InRange (s : Segment) : Prop := (∃ text, s.Shows text) ∧ s.stop < UInt64.size

namespace Segment

theorem InRange.fits {s : Segment} (h : s.InRange) :
    (UInt64.ofNat s.start).toNat + s.size < UInt64.size := by
  obtain ⟨⟨text, hshows⟩, hstop⟩ := h
  have heq := hshows.stop_eq
  rw [UInt64.toNat_ofNat_of_lt' (by omega), hshows.size_eq]
  omega

theorem InRange.span_eq {s : Segment} (h : s.InRange) :
    (⟨.ofNat s.start, .ofNat s.size + .ofNat s.start⟩ : Span) = s.span := by
  obtain ⟨⟨text, hshows⟩, -⟩ := h
  unfold Segment.span
  rw [hshows.stop_eq, hshows.size_eq, Nat.add_comm, UInt64.ofNat_add]

theorem InRange.mem_span_iff {s : Segment} (h : s.InRange) {n : Nat} :
    n ∈ s.span ↔ s.start ≤ n ∧ n < s.stop := by
  obtain ⟨⟨text, hshows⟩, hstop⟩ := h
  have heq := hshows.stop_eq
  unfold Segment.span
  rw [Span.mem_def, UInt64.toNat_ofNat_of_lt' (by omega), UInt64.toNat_ofNat_of_lt' hstop]

end Segment

namespace Partitions

variable {t : Tokenizer σ} {states : σ → Prop} {segments : List Segment}

theorem lines (ht : Partitions t states) (h : ∀ g ∈ segments, g.InRange) {s : σ} (hs : states s)
    (kind : Kind) :
    ∃ lines s', t.lines (segments.map fun g => (g.text, .ofNat g.start)) kind s = .ok (lines, s') ∧
      PartitionEach segments (lines.map Line.tokens) := by
  induction segments generalizing s kind with
  | nil => exact ⟨[], s, rfl, .nil⟩
  | cons g segments ih =>
    have hrange := h g List.mem_cons_self
    obtain ⟨text, hshows⟩ := hrange.1
    have hsize : (Segment.whole g.text).size = g.size := by
      rw [(Segment.shows_whole g.text).size_eq, hshows.text_eq, hshows.size_eq]
    have hfit := hrange.fits
    rw [← hsize] at hfit
    obtain ⟨row, s₁, hrun, hs₁, hpart⟩ := ht.analyze kind hs (Segment.shows_whole g.text) hfit
    rw [hsize, hrange.span_eq] at hpart
    obtain ⟨lines, s₂, hlines, hrest⟩ :=
      ih (fun g' hg' => h g' (List.mem_cons_of_mem g hg')) hs₁ row.continuation
    refine ⟨_, s₂, bind_eq_ok_iff.2 ⟨_, bind_eq_ok_iff.2 ⟨_, hrun, rfl⟩,
      bind_eq_ok_iff.2 ⟨_, hlines, rfl⟩⟩, .cons hpart hrest⟩

theorem tokenizeSegments (ht : Partitions t states) (h : ∀ g ∈ segments, g.InRange) {s : σ}
    (hs : states s) (kind : Kind) :
    ∃ parts s', t.tokenizeSegments segments kind s = .ok (parts.flatten, s') ∧
      PartitionEach segments parts := by
  induction segments generalizing s kind with
  | nil => exact ⟨[], s, rfl, .nil⟩
  | cons g segments ih =>
    have hrange := h g List.mem_cons_self
    obtain ⟨text, hshows⟩ := hrange.1
    obtain ⟨row, s₁, hrun, hs₁, hpart⟩ := ht.analyze kind hs hshows hrange.fits
    rw [hrange.span_eq] at hpart
    obtain ⟨parts, s₂, htokens, hrest⟩ :=
      ih (fun g' hg' => h g' (List.mem_cons_of_mem g hg')) hs₁ row.continuation
    refine ⟨row.tokens :: parts, s₂, ?_, .cons hpart hrest⟩
    exact bind_eq_ok_iff.2 ⟨_, hrun, bind_eq_ok_iff.2 ⟨_, htokens, rfl⟩⟩

end Partitions

def Grammar.Contiguous (g : Grammar) (languageIndex : UInt32) : Prop :=
  ∀ {segment : Segment} {text : String} (kind : Kind) {offset : Offset} (context : Option Context),
    segment.Shows text → offset.toNat + segment.size < UInt64.size →
      Call.Contiguous segment.size 0 ((g.emit segment kind offset).calls
        ⟨.openAt offset, segment.size, languageIndex, context, false⟩)

theorem isPartition_wholeLine {segment : Segment} {text : String} (h : segment.Shows text)
    {offset stop : Offset} (hstop : offset.advance segment.size = .ok stop) (kind : Kind) :
    isPartition ⟨offset, .ofNat segment.size + offset⟩
      (if segment.isEmpty then [] else [⟨kind, ⟨offset, stop⟩, none⟩]) = true := by
  have hle : offset ≤ stop := by
    obtain ⟨-, hval⟩ := Offset.advance_eq_ok_iff.1 hstop
    exact UInt64.le_iff_toNat_le.2 (by omega)
  rw [← Offset.eq_add_of_advance hstop]
  split
  next hempty =>
    rw [h.isEmpty_eq, decide_eq_true_iff, ← h.size_eq] at hempty
    rw [hempty, Offset.advance_zero] at hstop
    simp [isPartition, Except.ok.inj hstop]
  next => exact isPartition_cons_iff.2 ⟨rfl, hle, by simp [isPartition]⟩

@[simp] theorem Emitter.tokens_close (e : Emitter) (stop : Offset) (initial : Kind) :
    (e.close stop initial).tokens = e.row.tokens := by
  unfold Emitter.close
  split <;> rfl

namespace Engine

theorem analyze_isPartition_of_some {e : Engine} {g : Grammar} (hg : e.grammar = some g)
    (hcontiguous : g.Contiguous e.languageIndex) {segment : Segment} {text : String}
    (h : segment.Shows text) (kind : Kind) {offset : Offset}
    (hfit : offset.toNat + segment.size < UInt64.size) :
    ∃ e' signals, e.analyze segment kind offset = .ok (e', signals) ∧
      isPartition ⟨offset, .ofNat segment.size + offset⟩ e'.row.tokens = true := by
  obtain ⟨stop, hstop⟩ := Offset.exists_advance hfit
  have hcalls := hcontiguous kind e.context h hfit
  have hafter := Call.applyAll_eq_after (e := e.emitter segment offset) hcalls.within hfit
  obtain ⟨signals, hrun⟩ := analyze_eq_of_calls hg hstop hafter
  refine ⟨_, signals, hrun, ?_⟩
  have hpart := hcalls.isPartition hfit
  rw [show UInt64.ofNat 0 + offset = offset from UInt64.zero_add offset] at hpart
  simpa [Emitter.after, emitter, Row.openAt, Emitter.lineStart] using hpart

end Engine

namespace Instance

/-- The plain tokenizer and an engine without a grammar cover each line by one token; a grammar has to
run from end to end. -/
def Contiguous : Instance → Prop
  | .plain _ => True
  | .engine e => ∀ g, e.grammar = some g → g.Contiguous e.languageIndex
  | .table _ _ => False

theorem contiguous_of_fresh {i j : Instance} (hfresh : j.fresh = i.fresh) (h : i.Contiguous) :
    j.Contiguous := by
  cases i with
  | plain p =>
    obtain ⟨q, rfl⟩ := eq_plain_of_fresh hfresh
    trivial
  | engine e =>
    obtain ⟨e', rfl, hgrammar, hindex⟩ := eq_engine_of_fresh hfresh
    intro g hg
    rw [hindex]
    exact h g (hgrammar ▸ hg)
  | table t row => exact h.elim

theorem Contiguous.analyze {i : Instance} (h : i.Contiguous) {segment : Segment} {text : String}
    (hshows : segment.Shows text) (kind : Kind) {offset : Offset}
    (hfit : offset.toNat + segment.size < UInt64.size) :
    ∃ j signals, i.analyze segment kind offset = .ok (j, signals) ∧
      isPartition ⟨offset, .ofNat segment.size + offset⟩ j.row.tokens = true := by
  obtain ⟨stop, hstop⟩ := Offset.exists_advance hfit
  cases i with
  | plain p =>
    refine ⟨_, _, bind_eq_ok_iff.2 ⟨_, by rw [Plain.analyze, hstop]; rfl, rfl⟩, ?_⟩
    exact isPartition_wholeLine hshows hstop .text
  | engine e =>
    cases hg : e.grammar with
    | none =>
      refine ⟨_, _, bind_eq_ok_iff.2 ⟨_, by rw [Engine.analyze, hstop, hg]; rfl, rfl⟩, ?_⟩
      exact isPartition_wholeLine hshows hstop kind
    | some g =>
      obtain ⟨e', signals, hrun, hpart⟩ :=
        Engine.analyze_isPartition_of_some hg (h g hg) hshows kind hfit
      exact ⟨.engine e', signals, bind_eq_ok_iff.2 ⟨_, hrun, rfl⟩, hpart⟩
  | table t row => exact h.elim

theorem Contiguous.partitions {i : Instance} (h : i.Contiguous) :
    Partitions Traced.tokenizer fun s => s.current.fresh = i.fresh where
  analyze := by
    intro s segment text kind offset hs hshows hfit
    obtain ⟨j, signals, hrun, hpart⟩ := (contiguous_of_fresh hs h).analyze hshows kind hfit
    refine ⟨j.row, ⟨j, s.signals ++ signals⟩, ?_, (fresh_analyze hrun).trans hs, hpart⟩
    exact bind_eq_ok_iff.2 ⟨_, hrun, rfl⟩
  reset := fun {s} hs => (fresh_setContext none s.current).trans hs

end Instance
end Linewise
