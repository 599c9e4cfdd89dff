import Linewise.Proofs.Text.Terminators
import Linewise.Proofs.Tokenizer.Requests

/-! The two ways through a whole text. A document derives the starts of its lines from the texts and the
widths of their endings, and a list of tokens takes them from the views of the lines. Both come to the
same starts, so the tokenizer is asked the same and the tokens are the same. -/
namespace Linewise
open TextLine

namespace Segment

theorem lineStarts_lines {text : String} (hsize : Text.size text.toList < UInt64.size) :
    lineStarts 0 ((lines text).map Segment.text) (gaps (Text.size text.toList) (lines text)) =
      .ok ((lines text).map fun g => .ofNat g.start) := by
  rw [map_text_lines, gaps_lines]
  refine lineStarts_lines_eq_ok_iff.2 ⟨by rwa [join_split], ?_⟩
  exact map_start_place text 0 (split text.toList)

def nextStart (size : Nat) (segments : List Segment) (i : Nat) : Nat :=
  (segments[i + 1]?).elim size Segment.start

/-- No view of consecutive lines goes beyond the next one, so each gap is the width of an ending. -/
theorem stop_add_gap_place {buffer : String} {start : Nat} {ls : List TextLine} {i : Nat}
    {g : Segment} (hg : (place buffer start ls)[i]? = some g) :
    ∃ width, (gaps (start + Text.size (join ls)) (place buffer start ls))[i]? = some width ∧
      g.stop + width =
        nextStart (start + Text.size (join ls)) (place buffer start ls) i := by
  induction ls generalizing start i with
  | nil => cases hg
  | cons l ls ih =>
    have hwidth := l.size_text
    rw [gaps_place]
    cases i with
    | zero =>
      obtain rfl := Option.some.inj hg
      refine ⟨l.width, rfl, ?_⟩
      have hnext : start + Text.size l.text =
          nextStart (start + Text.size (join (l :: ls))) (place buffer start (l :: ls)) 0 := by
        cases ls with
        | nil => simp [nextStart, place]
        | cons m ls => rfl
      rw [← hnext]
      show start + Text.size l.content + l.width = start + Text.size l.text
      omega
    | succ i =>
      obtain ⟨width, hgap, hnext⟩ := ih hg
      rw [gaps_place] at hgap
      refine ⟨width, hgap, ?_⟩
      rw [join_cons, Text.size_append, ← Nat.add_assoc]
      exact hnext

theorem stop_add_gap_lines {text : String} {i : Nat} {g : Segment}
    (hg : (lines text)[i]? = some g) :
    ∃ width, (gaps (Text.size text.toList) (lines text))[i]? = some width ∧
      g.stop + width = nextStart (Text.size text.toList) (lines text) i := by
  have hplace := stop_add_gap_place hg
  rwa [Nat.zero_add, join_split] at hplace

end Segment

/-- The lines of a document of a text are analyzed where their views start. -/
theorem Document.ofText_eq_lines {σ : Type} (t : Tokenizer σ) {text : String}
    (hsize : Text.size text.toList < UInt64.size) (s : σ) :
    Document.ofText t text s =
      (t.lines ((Segment.lines text).map fun g => (g.text, .ofNat g.start)) .null
        (t.setContext none s)).map fun p =>
          (⟨p.1, Segment.gaps (Text.size text.toList) (Segment.lines text)⟩, p.2) := by
  have hzip : ((Segment.lines text).map Segment.text).zip
      ((Segment.lines text).map fun g => UInt64.ofNat g.start) =
        (Segment.lines text).map fun g => (g.text, .ofNat g.start) := List.zip_map' ..
  simp only [ofText, build, Segment.lineStarts_lines hsize, bind, Except.bind, hzip]
  cases t.lines ((Segment.lines text).map fun g => (g.text, .ofNat g.start)) .null
    (t.setContext none s) <;> rfl

theorem Document.lines_of_ofText {σ : Type} {t : Tokenizer σ} {text : String}
    (hsize : Text.size text.toList < UInt64.size) {s s' : σ} {d : Document}
    (hrun : Document.ofText t text s = .ok (d, s')) :
    t.lines ((Segment.lines text).map fun g => (g.text, .ofNat g.start)) .null
      (t.setContext none s) = .ok (d.lines, s') := by
  rw [ofText_eq_lines t hsize] at hrun
  cases hlines : t.lines ((Segment.lines text).map fun g => (g.text, .ofNat g.start)) .null
      (t.setContext none s) with
  | error fault =>
    rw [hlines] at hrun
    cases hrun
  | ok result =>
    rw [hlines] at hrun
    obtain ⟨rfl, rfl⟩ := Prod.mk.inj (Except.ok.inj hrun)
    rfl

namespace ReadsText

variable {σ : Type} {t : Tokenizer σ} {states : σ → Prop} {text : String}

/-- The tokens and the state, or the fault, are the same both ways. -/
theorem ofText_map_eq_tokenize (ht : ReadsText t states)
    (hsize : Text.size text.toList < UInt64.size) {s : σ} (hs : states s) :
    (Document.ofText t text s).map (fun p => (p.1.lines.flatMap Line.tokens, p.2)) =
      t.tokenize text s := by
  have hlines := ht.lines_eq_tokenizeSegments (Segment.lines_shows_text text) (ht.reset hs) .null
  rw [Document.ofText_eq_lines t hsize, Tokenizer.tokenize, ← hlines]
  cases t.lines ((Segment.lines text).map fun g => (g.text, .ofNat g.start)) .null
    (t.setContext none s) <;> rfl

/-- The requests are the same as well, those before a fault and that of the fault included. -/
theorem ofText_observed (ht : ReadsText t states) (hsize : Text.size text.toList < UInt64.size)
    {s : σ} (hs : states s) (log : List Request) :
    ∃ d tokens o, Document.ofText t.observed text ⟨log, .ok s⟩ = .ok (d, o) ∧
      t.observed.tokenize text ⟨log, .ok s⟩ = .ok (tokens, o) ∧
      o.requests = log ++ .setContext none ::
        t.requests (Segment.lines text) .null (t.setContext none s) := by
  obtain ⟨tokens, htokens⟩ := t.observed_tokenizeSegments (Segment.lines text) .null
    (log ++ [.setContext none]) (t.setContext none s)
  have hstate : ∀ s', (Except.ok s : Except Fault σ) = .ok s' → states s' := by
    intro s' hs'
    obtain rfl := Except.ok.inj hs'
    exact hs
  have hsame := ht.observed.ofText_map_eq_tokenize (s := ⟨log, .ok s⟩) hsize hstate
  rw [show t.observed.tokenize text ⟨log, .ok s⟩ = _ from htokens] at hsame
  cases hbuild : Document.ofText t.observed text ⟨log, .ok s⟩ with
  | error fault =>
    rw [hbuild] at hsame
    cases hsame
  | ok result =>
    obtain ⟨d, o⟩ := result
    rw [hbuild] at hsame
    obtain ⟨-, rfl⟩ := Prod.mk.inj (Except.ok.inj hsame)
    exact ⟨d, tokens, _, rfl, htokens, by rw [List.append_assoc]; rfl⟩

end ReadsText

/-- A document of a text and the list of its tokens are made by the same requests of the tokenizer, which
are to leave the context and then to analyze each line where its view starts. So they have the same
tokens and leave the tokenizer in the same state, or they end in the same fault. The tokenizers whose
grammar, if any, looks at nothing but the line are such. -/
theorem ofText_eq_tokenize :
    (∀ i : Instance, i.ReadsText →
      ReadsText Traced.tokenizer fun s => s.current.fresh = i.fresh) ∧
    ∀ {σ : Type} {t : Tokenizer σ} {states : σ → Prop}, ReadsText t states →
      ∀ {text : String}, Text.size text.toList < UInt64.size → ∀ {s : σ}, states s →
        (Document.ofText t text s).map (fun p => (p.1.lines.flatMap Line.tokens, p.2)) =
          t.tokenize text s ∧
        (∀ log, ∃ d tokens o, Document.ofText t.observed text ⟨log, .ok s⟩ = .ok (d, o) ∧
          t.observed.tokenize text ⟨log, .ok s⟩ = .ok (tokens, o) ∧
          o.requests = log ++ .setContext none ::
            t.requests (Segment.lines text) .null (t.setContext none s)) ∧
        (∀ {d : Document} {s' : σ}, Document.ofText t text s = .ok (d, s') →
          t.requests (Segment.lines text) .null (t.setContext none s) =
            List.zipWith (fun g kind => .analyze g.text kind (.ofNat g.start)) (Segment.lines text)
              (.null :: d.lines.map Line.continuation)) ∧
        (∃ starts, lineStarts 0 ((Segment.lines text).map Segment.text)
            (Segment.gaps (Text.size text.toList) (Segment.lines text)) = .ok starts ∧
          starts.map UInt64.toNat = (Segment.lines text).map Segment.start) ∧
        ∀ {i : Nat} {g : Segment}, (Segment.lines text)[i]? = some g →
          ∃ width,
            (Segment.gaps (Text.size text.toList) (Segment.lines text))[i]? = some width ∧
            g.stop + width =
              Segment.nextStart (Text.size text.toList) (Segment.lines text) i := by
  refine ⟨fun i hi => hi.traced, ?_⟩
  intro σ t states ht text hsize s hs
  refine ⟨ht.ofText_map_eq_tokenize hsize hs, ht.ofText_observed hsize hs, ?_, ?_,
    Segment.stop_add_gap_lines⟩
  · intro d s' hrun
    exact ht.requests_eq_of_lines (Segment.lines_shows_text text) (ht.reset hs)
      (Document.lines_of_ofText hsize hrun)
  · refine ⟨_, Segment.lineStarts_lines hsize, ?_⟩
    rw [List.map_map]
    apply List.map_congr_left
    intro g hg
    obtain ⟨-, hle, hstop⟩ := Segment.place_bounds hg
    rw [join_split] at hstop
    exact UInt64.toNat_ofNat_of_lt' (by omega)

theorem ofText_eq_tokenize_table :
    let text := "ab\r\ncd\r\r\n\nab"
    let marks : List Mark := [⟨9, 2, .text, some 1, false⟩, ⟨0, 2, .keyword, none, true⟩]
    let i : Instance := .table ⟨[("ab", marks)], []⟩ .empty
    ∃ d s₁ d' tokens o, Document.ofText Traced.tokenizer text (.start i) = .ok (d, s₁) ∧
      Traced.tokenizer.tokenize text (.start i) = .ok (d.lines.flatMap Line.tokens, s₁) ∧
      Document.ofText Traced.tokenizer.observed text ⟨[], .ok (.start i)⟩ = .ok (d', o) ∧
      Traced.tokenizer.observed.tokenize text ⟨[], .ok (.start i)⟩ = .ok (tokens, o) ∧
      o.requests = [.setContext none, .analyze "ab" .null 0, .analyze "cd" .keyword 4,
        .analyze "" .keyword 7, .analyze "" .keyword 9, .analyze "ab" .keyword 10] := by
  intro text marks i
  have ht := ofText_eq_tokenize.1 i trivial
  have hsize : Text.size text.toList < UInt64.size := by decide +kernel
  obtain ⟨hsame, hrequests, -, -, -⟩ := ofText_eq_tokenize.2 ht hsize (s := .start i) rfl
  obtain ⟨d', tokens, o, hbuild, htokens, ho⟩ := hrequests []
  have hok : (Document.ofText Traced.tokenizer text (.start i)).isOk = true := by decide +kernel
  cases hrun : Document.ofText Traced.tokenizer text (.start i) with
  | error fault =>
    rw [hrun] at hok
    cases hok
  | ok result =>
    obtain ⟨d, s₁⟩ := result
    rw [hrun] at hsame
    refine ⟨d, s₁, d', tokens, o, rfl, hsame.symm, hbuild, htokens, ?_⟩
    rw [ho]
    decide +kernel

end Linewise
