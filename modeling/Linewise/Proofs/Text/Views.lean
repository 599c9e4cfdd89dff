import Linewise.Proofs.Document.Starts
import Mathlib.Data.List.Forall2

/-! The views of the lines of a text. They show the contents of the lines, they start where a document
has its lines start, and the gaps between them are the endings. -/
namespace Linewise

namespace Segment

/-- The view is one of whole characters, its ends in order, and `text` is what it shows. -/
def Shows (s : Segment) (text : String) : Prop := Text.slice? s.buffer s.start s.stop = some text

theorem Shows.text_eq {s : Segment} {text : String} (h : s.Shows text) : s.text = text := by
  unfold Shows at h
  rw [Segment.text, h, Option.getD_some]

theorem Shows.size_eq {s : Segment} {text : String} (h : s.Shows text) :
    s.size = Text.size text.toList := by
  obtain ⟨before, after, -, hstart, hstop⟩ := Text.slice?_eq_some_iff.1 h
  unfold Segment.size
  omega

theorem Shows.stop_eq {s : Segment} {text : String} (h : s.Shows text) :
    s.stop = s.start + Text.size text.toList := by
  obtain ⟨before, after, -, hstart, hstop⟩ := Text.slice?_eq_some_iff.1 h
  omega

theorem Shows.isEmpty_eq {s : Segment} {text : String} (h : s.Shows text) :
    s.isEmpty = decide (Text.size text.toList = 0) := by
  have hstop := h.stop_eq
  simp only [Segment.isEmpty, hstop, Nat.left_eq_add, Bool.beq_eq_decide_eq]

@[simp] theorem shows_whole (text : String) : (whole text).Shows text :=
  Text.slice?_eq_some_iff.2 ⟨[], [], by simp [whole], rfl, by simp [whole]⟩

end Segment

namespace TextLine

def string (l : TextLine) : String := .ofList l.content

def width (l : TextLine) : Nat := l.ending.width

@[simp] theorem toList_string (l : TextLine) : l.string.toList = l.content := by
  simp [string]

theorem size_text (l : TextLine) : Text.size l.text = Text.size l.content + l.width := by
  simp [text, width]

theorem extent_lines (ls : List TextLine) :
    extent (ls.map string) (ls.map width) = Text.size (join ls) := by
  induction ls with
  | nil => rfl
  | cons l ls ih => simp [ih, size_text]

end TextLine

namespace Segment
open TextLine

/-- Each view of consecutive lines shows the content of its line. -/
theorem place_shows {buffer : String} {before : List Char} {ls : List TextLine}
    (h : buffer.toList = before ++ join ls) :
    List.Forall₂ (fun segment l => segment.Shows l.string)
      (place buffer (Text.size before) ls) ls := by
  induction ls generalizing before with
  | nil => exact .nil
  | cons l ls ih =>
    refine .cons ?_ ?_
    · refine Text.slice?_eq_some_iff.2 ⟨before, l.ending.text ++ join ls, ?_, rfl, ?_⟩
      · simp [h, string, TextLine.text]
      · simp [string]
    · have hbefore : buffer.toList = (before ++ l.text) ++ join ls := by simp [h]
      have hrest := ih hbefore
      rwa [Text.size_append] at hrest

theorem lines_show (text : String) :
    List.Forall₂ (fun segment l => segment.Shows l.string) (lines text) (split text.toList) := by
  have h : text.toList = [] ++ join (split text.toList) := by rw [join_split]; rfl
  exact place_shows h

theorem lines_shows_text (text : String) : ∀ g ∈ lines text, g.Shows g.text := by
  intro g hg
  obtain ⟨i, hi, rfl⟩ := List.mem_iff_getElem.1 hg
  have hlen := (lines_show text).length_eq
  have hshows := (lines_show text).get hi (hlen ▸ hi)
  exact (show (lines text)[i].text = _ from hshows.text_eq) ▸ hshows

theorem map_text_lines (text : String) :
    (lines text).map Segment.text = (split text.toList).map string := by
  have hmap : List.Forall₂ Eq ((lines text).map Segment.text) ((split text.toList).map string) :=
    List.forall₂_map_left_iff.2
      (List.forall₂_map_right_iff.2 ((lines_show text).imp fun _ _ h => h.text_eq))
  exact List.forall₂_eq_eq_eq ▸ hmap

/-- The views start where lines with their contents and endings do. -/
theorem map_start_place (buffer : String) (start : Nat) (ls : List TextLine) :
    (place buffer start ls).map (fun segment => UInt64.ofNat segment.start) =
      startsFrom start (ls.map string) (ls.map width) := by
  induction ls generalizing start with
  | nil => rfl
  | cons l ls ih =>
    simp only [place, List.map_cons, ih, startsFrom, List.headD_cons, List.tail_cons, size_text,
      toList_string]

theorem gaps_place (buffer : String) (start : Nat) (ls : List TextLine) :
    gaps (start + Text.size (join ls)) (place buffer start ls) = ls.map width := by
  induction ls generalizing start with
  | nil => rfl
  | cons l ls ih =>
    have hrest := ih (start + Text.size l.text)
    have hwidth : start + Text.size l.text - (start + Text.size l.content) = l.width := by
      rw [size_text]
      omega
    rw [join_cons, Text.size_append, ← Nat.add_assoc, List.map_cons, ← hrest]
    cases ls with
    | nil =>
      simp only [place, gaps, join_nil, Text.size_nil, Nat.add_zero, hwidth]
    | cons m ls => simp only [place, gaps, hwidth]

theorem gaps_lines (text : String) :
    gaps (Text.size text.toList) (lines text) = (split text.toList).map width := by
  have h := gaps_place text 0 (split text.toList)
  rwa [Nat.zero_add, join_split] at h

end Segment

/-- A document of a text is built from the contents and the widths of its lines. -/
theorem Document.ofText_eq_build {σ : Type} (t : Tokenizer σ) (text : String) (s : σ) :
    Document.ofText t text s =
      Document.build t ((TextLine.split text.toList).map TextLine.string)
        ((TextLine.split text.toList).map TextLine.width) s := by
  rw [Document.ofText, Segment.map_text_lines, Segment.gaps_lines]

/-- The lines of a text have starts exactly when its size is an offset. -/
theorem lineStarts_lines_eq_ok_iff {ls : List TextLine} {starts : List Offset} :
    lineStarts 0 (ls.map TextLine.string) (ls.map TextLine.width) = .ok starts ↔
      Text.size (TextLine.join ls) < UInt64.size ∧
        starts = startsFrom 0 (ls.map TextLine.string) (ls.map TextLine.width) := by
  rw [lineStarts_eq_ok_iff, TextLine.extent_lines]
  simp

end Linewise
