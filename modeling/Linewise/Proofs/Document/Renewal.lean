import Linewise.Proofs.Document.Reanalysis
import Linewise.Proofs.Grammar
import Linewise.Proofs.Tokenizer.Requests

/-! All that an update asks of the tokenizer, and all that it does to the document. The requests are
those of the lines analyzed anew, after the one that brings the context back, and no line before or
after them comes out of it with another shape. -/
namespace Linewise

variable {σ : Type} {t : Tokenizer σ}

def lineRequests (places : List (String × Offset)) (kind : Kind) (lines : List Line) :
    List Request :=
  List.zipWith (fun place kind => .analyze place.1 kind place.2) places
    (kind :: lines.map Line.continuation)

theorem Tokenizer.observed_line {text : String} {start : Offset} {kind : Kind} {s s' : σ}
    {line : Line} (h : t.line text start kind s = .ok (line, s')) (log : List Request) :
    t.observed.line text start kind ⟨log, .ok s⟩ =
      .ok (line, ⟨log ++ [.analyze text kind start], .ok s'⟩) := by
  obtain ⟨⟨row, s₁⟩, hanalyze, h⟩ := bind_eq_ok_iff.1 h
  obtain ⟨rfl, rfl⟩ := Prod.mk.inj (pure_eq_ok_iff.1 h)
  have hobserved : t.observed.analyze (.whole text) kind start ⟨log, .ok s⟩ =
      .ok (row, ⟨log ++ [.analyze text kind start], .ok s₁⟩) := by
    simp only [observed, hanalyze, (Segment.shows_whole text).text_eq]
  exact bind_eq_ok_iff.2 ⟨_, hobserved, rfl⟩

namespace Document

/-- Under observation the lines analyzed anew are the same, and their requests are written down. -/
theorem observed_reanalyze {slots settled : List Slot} {kind : Kind} {s s' : σ} {anew : List Line}
    (h : reanalyze t slots kind s = .ok (anew, settled, s')) (log : List Request) :
    reanalyze t.observed slots kind ⟨log, .ok s⟩ = .ok (anew, settled,
      ⟨log ++ lineRequests ((slots.map Slot.place).take anew.length) kind anew, .ok s'⟩) := by
  induction slots generalizing kind s anew log with
  | nil =>
    obtain ⟨rfl, rfl, rfl⟩ : [] = anew ∧ [] = settled ∧ s = s' := by simpa [reanalyze] using h
    simp [reanalyze, lineRequests]
  | cons slot rest ih =>
    obtain ⟨⟨line, s₁⟩, hline, h⟩ := bind_eq_ok_iff.1 h
    refine bind_eq_ok_iff.2 ⟨_, t.observed_line hline log, ?_⟩
    by_cases hsame : slot.cached.sameShape line = true
    · obtain ⟨rfl, rfl, rfl⟩ : [line] = anew ∧ rest = settled ∧ s₁ = s' := by
        simpa [hsame, pure_eq_ok_iff] using h
      simp only [if_pos hsame]
      rfl
    · simp only [if_neg hsame, bind_eq_ok_iff, pure_eq_ok_iff] at h ⊢
      obtain ⟨⟨lines, settled', s₂⟩, hrest, h⟩ := h
      obtain ⟨rfl, rfl, rfl⟩ : line :: lines = anew ∧ settled' = settled ∧ s₂ = s' := by
        simpa using h
      refine ⟨_, ih hrest _, ?_⟩
      rw [List.append_assoc]
      rfl

variable {d d' : Document} {texts : List String} {index : Nat}

theorem observed_reanalyzeFrom {s s' : σ} {anew : List Line} {settled : List Slot}
    (hlen : d.lines.length = texts.length)
    (h : d.reanalyzeFrom t texts index s = .ok (anew, settled, s')) (log : List Request) :
    d.reanalyzeFrom t.observed texts index ⟨log, .ok s⟩ = .ok (anew, settled,
      ⟨log ++ .setContext (d.continuationBefore index).2 ::
        lineRequests (((d.places texts).drop index).take anew.length)
          (d.continuationBefore index).1 anew, .ok s'⟩) := by
  have hobserved := observed_reanalyze h (log ++ [.setContext (d.continuationBefore index).2])
  rw [List.append_assoc, List.map_drop, map_place_slots hlen] at hobserved
  exact hobserved

/-- The document has the lines `anew` from `index` on. The lines before them are the old ones, and those
after them have the shapes of the old ones; all from `index` on are where the texts have them start. -/
structure Renewed (d : Document) (texts : List String) (index : Nat) (anew : List Line)
    (d' : Document) : Prop where
  endings_eq : d'.endings = d.endings
  length_eq : d'.lines.length = d.lines.length
  take_eq : d'.lines.take index = d.lines.take index
  anew_eq : (d'.lines.drop index).take anew.length = anew
  shape_eq : ∀ j, index + anew.length ≤ j →
    d'.lines[j]?.map Line.shape = d.lines[j]?.map Line.shape
  starts_eq : (d'.lines.map Line.start).drop index = (startsFrom 0 texts d.endings).drop index

theorem Reanalyzed.map_start {places : List (String × Offset)} {cached anew : List Line}
    {kind : Kind} {s s' : σ} (h : Reanalyzed t places cached kind s anew s') :
    anew.map Line.start = (places.map Prod.snd).take anew.length := by
  rw [Tokenizer.map_start_lines h.lines_eq, List.map_take]

theorem renewed_renew (hlen : d.lines.length = texts.length) (hindex : index ≤ texts.length)
    {anew : List Line}
    (hstart : anew.map Line.start = ((startsFrom 0 texts d.endings).drop index).take anew.length)
    (hanew : anew.length ≤ texts.length - index) :
    Renewed d texts index anew (d.renew texts index anew) := by
  have hindex' : index ≤ d.lines.length := hlen ▸ hindex
  have hstarts : (startsFrom 0 texts d.endings).length = d.lines.length := by
    rw [length_startsFrom, hlen]
  refine ⟨rfl, ?_, take_lines_renew hindex', ?_, ?_, ?_⟩
  · simp only [renew, List.length_append, List.length_take, List.length_map, List.length_drop,
      List.length_zip]
    omega
  · rw [drop_lines_renew hindex', List.take_left]
  · intro j hj
    rw [getElem?_lines_renew hindex' hj, Option.map_map]
    have hshape : Line.shape ∘ (fun p : Line × Offset => p.1.moved p.2) = Line.shape ∘ Prod.fst := by
      funext p
      exact p.1.shape_moved p.2
    rw [hshape, ← Option.map_map, ← List.getElem?_map, List.map_fst_zip (Nat.le_of_eq hstarts.symm)]
  · have hmoved : Line.start ∘ (fun p : Line × Offset => p.1.moved p.2) = Prod.snd := rfl
    rw [← List.map_drop, drop_lines_renew hindex', List.map_append, List.map_map, hmoved,
      List.map_drop, List.map_snd_zip (Nat.le_of_eq hstarts), hstart, ← List.drop_drop,
      List.take_append_drop]

/-- Lines analyzed anew where they start now leave a renewed document. -/
theorem Reanalyzed.renewed {anew : List Line} {kind : Kind} {s s' : σ}
    (h : Reanalyzed t ((d.places texts).drop index) (d.lines.drop index) kind s anew s')
    (hlen : d.lines.length = texts.length) (hindex : index ≤ texts.length) :
    Renewed d texts index anew (d.renew texts index anew) := by
  have hplaces : (d.places texts).map Prod.snd = startsFrom 0 texts d.endings :=
    List.map_snd_zip (Nat.le_of_eq (length_startsFrom 0 texts d.endings))
  apply renewed_renew hlen hindex
  · rw [h.map_start, List.map_drop, hplaces]
  · simpa [places] using h.length_le

/-- As long as the lines end at an offset, they start after the bytes of the lines before them. -/
theorem eq_of_getElem?_places (hfit : extent texts d.endings < UInt64.size) {j : Nat} {text : String}
    {start : Offset} (h : (d.places texts)[j]? = some (text, start)) :
    texts[j]? = some text ∧ start.toNat = extent (texts.take j) d.endings := by
  obtain ⟨htext, hstart⟩ : texts[j]? = some text ∧ (startsFrom 0 texts d.endings)[j]? = some start :=
    List.getElem?_zip_eq_some.1 h
  rw [getElem?_startsFrom, if_pos (List.getElem?_eq_some_iff.1 htext).1, Option.some_inj] at hstart
  refine ⟨htext, ?_⟩
  rw [← hstart, Nat.zero_add]
  exact UInt64.toNat_ofNat_of_lt' (Nat.lt_of_le_of_lt (extent_take_le texts d.endings j) hfit)

/-- An update first brings back the context before the line at `index`, and then has the lines from there
on analyzed, each once and where it starts now, up to the first that keeps its shape. -/
theorem update_renews (hlen : d.lines.length = texts.length) (hindex : index < texts.length)
    {s s' : σ} (hrun : d.update t texts index s = .ok (d', s')) :
    ∃ anew : List Line,
      Reanalyzed t ((d.places texts).drop index) (d.lines.drop index) (d.continuationBefore index).1
        (t.setContext (d.continuationBefore index).2 s) anew s' ∧
      (∀ j text start, (d.places texts)[j]? = some (text, start) →
        texts[j]? = some text ∧ start.toNat = extent (texts.take j) d.endings) ∧
      Renewed d texts index anew d' ∧
      ∀ log, d.update t.observed texts index ⟨log, .ok s⟩ =
        .ok (d', ⟨log ++ .setContext (d.continuationBefore index).2 ::
          lineRequests (((d.places texts).drop index).take anew.length)
            (d.continuationBefore index).1 anew, .ok s'⟩) := by
  obtain ⟨hfit, anew, settled, hanalysis, hroom, rfl⟩ :=
    exists_reanalyzeFrom_of_update hlen hindex hrun
  obtain ⟨hspec, -⟩ := update_eq_of_reanalyzeFrom hlen hindex hfit hanalysis
  have hplaces : (d.places texts).map Prod.snd = startsFrom 0 texts d.endings :=
    List.map_snd_zip (Nat.le_of_eq (length_startsFrom 0 texts d.endings))
  have hstart : anew.map Line.start =
      ((startsFrom 0 texts d.endings).drop index).take anew.length := by
    rw [hspec.map_start, List.map_drop, hplaces]
  have hanew : anew.length ≤ texts.length - index := by
    simpa [places] using hspec.length_le
  refine ⟨anew, hspec, fun j text start h => eq_of_getElem?_places hfit h,
    renewed_renew hlen (Nat.le_of_lt hindex) hstart hanew, fun log => ?_⟩
  rw [(update_eq_of_reanalyzeFrom hlen hindex hfit (observed_reanalyzeFrom hlen hanalysis log)).2,
    if_pos hroom]

/-- The second of four lines is changed. Its shape is another one, that of the third is not, and the
fourth is moved. -/
theorem update_renews_parens :
    let before := ["(", "a", "b", "c"]
    let after := ["(", "a()", "b", "c"]
    let s : Traced := .start (Grammar.Parens.tokenizer "parens" 0)
    let requests : List Request :=
      [.setContext (some (.nesting 1)), .analyze "a()" .delimiter 2, .analyze "b" .delimiter 6]
    ∃ d s₁ d' s₂, ofLines Traced.tokenizer before s = .ok (d, s₁) ∧
      d.lines.length = after.length ∧ d.update Traced.tokenizer after 1 s₁ = .ok (d', s₂) ∧
      d.update Traced.tokenizer.observed after 1 ⟨[], .ok s₁⟩ = .ok (d', ⟨requests, .ok s₂⟩) ∧
      d.lines.map Line.start = [0, 2, 4, 6] ∧ d'.lines.map Line.start = [0, 2, 6, 8] := by
  intro before after s requests
  have hstarts : (do
      let (d, s₁) ← ofLines Traced.tokenizer before s
      let (d', _) ← d.update Traced.tokenizer after 1 s₁
      return (d.lines.map Line.start, d'.lines.map Line.start)) =
        (.ok ([0, 2, 4, 6], [0, 2, 6, 8]) : Except Fault _) := by
    decide +kernel
  obtain ⟨⟨d, s₁⟩, hbuild, hstarts⟩ := bind_eq_ok_iff.1 hstarts
  obtain ⟨⟨d', s₂⟩, hrun, hstarts⟩ := bind_eq_ok_iff.1 hstarts
  obtain ⟨hbefore, hafter⟩ := Prod.mk.inj (pure_eq_ok_iff.1 hstarts)
  have hsame : before.length = after.length := rfl
  have hlen : d.lines.length = after.length := (length_lines_build hbuild).trans hsame
  have hindex : 1 < after.length := by decide
  obtain ⟨anew, -, -, -, hobserved⟩ := update_renews hlen hindex hrun
  have hrequests : (do
      let (d, s₁) ← ofLines Traced.tokenizer before s
      let (_, o) ← d.update Traced.tokenizer.observed after 1 ⟨[], .ok s₁⟩
      return o.requests) = (.ok requests : Except Fault _) := by
    decide +kernel
  have hobserved := hobserved []
  simp only [hbuild, bind, Except.bind, hobserved, pure_eq_ok_iff] at hrequests
  rw [hrequests] at hobserved
  exact ⟨d, s₁, d', s₂, hbuild, hlen, hrun, hobserved, hbefore, hafter⟩

end Document
end Linewise
