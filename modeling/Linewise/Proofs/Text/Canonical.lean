import Linewise.Proofs.Text.Splitting
import Linewise.Proofs.Text.Views

/-! Texts and their lines, one for one. The lines that a text can be split into are those that join
without a loss, and a text has only one such list of lines: its own, each with what lies between its
view and the next. -/
namespace Linewise
open TextLine

namespace TextLine

/-- No line without an ending is empty, and no CR is followed by an LF of another line. -/
def Lossless : List TextLine → Prop
  | [] => True
  | l :: ls => (l.ending = .missing → l.content ≠ []) ∧
      (l.ending = .cr → ls.head? ≠ some ⟨[], .lf⟩) ∧ Lossless ls

instance decidableLossless : (ls : List TextLine) → Decidable (Lossless ls)
  | [] => .isTrue trivial
  | l :: ls =>
    have := decidableLossless ls
    inferInstanceAs (Decidable ((l.ending = .missing → l.content ≠ []) ∧
      (l.ending = .cr → ls.head? ≠ some ⟨[], .lf⟩) ∧ Lossless ls))

structure Canonical (ls : List TextLine) : Prop where
  consecutive : Consecutive ls
  lossless : Lossless ls

/-- Only an empty line that ends in LF begins with one. -/
theorem head?_of_join_eq {l : TextLine} {ls : List TextLine} (hcontent : Unbroken l.content)
    (hmissing : l.ending = .missing → l.content ≠ []) {rest : List Char}
    (hjoin : join (l :: ls) = '\n' :: rest) : (l :: ls).head? = some ⟨[], .lf⟩ := by
  obtain ⟨content, ending⟩ := l
  cases content with
  | cons c content =>
    have hc : c = '\n' := List.head_eq_of_cons_eq hjoin
    exact absurd hc (hcontent c List.mem_cons_self).1
  | nil =>
    cases ending with
    | lf => rfl
    | crlf => exact absurd (List.head_eq_of_cons_eq hjoin) (by decide)
    | cr => exact absurd (List.head_eq_of_cons_eq hjoin) (by decide)
    | missing => exact absurd rfl (hmissing rfl)

theorem split_join {ls : List TextLine} (h : Canonical ls) : split (join ls) = ls := by
  obtain ⟨hconsecutive, hlossless⟩ := h
  induction ls with
  | nil => rfl
  | cons l ls ih =>
    obtain ⟨hcontent, hlast, hrest⟩ := hconsecutive
    obtain ⟨hmissing, hcr, hrest'⟩ := hlossless
    have hborder : l.ending = .cr → ∀ rest, join ls ≠ '\n' :: rest := by
      intro hending rest hjoin
      cases ls with
      | nil => cases hjoin
      | cons m ls => exact hcr hending (head?_of_join_eq hrest.1 hrest'.1 hjoin)
    rw [split_join_cons hcontent (fun h => ⟨hmissing h, hlast h⟩) hborder, ih hrest hrest']

theorem lossless_extendFirst (c : Char) {ls : List TextLine} (h : Lossless ls) :
    Lossless (extendFirst c ls) := by
  cases ls with
  | nil => exact ⟨fun _ => List.cons_ne_nil c [], by simp, trivial⟩
  | cons l ls => exact ⟨fun _ => List.cons_ne_nil c l.content, h.2.1, h.2.2⟩

theorem lossless_split (s : List Char) : Lossless (split s) := by
  fun_induction split s with
  | case1 => trivial
  | case2 s ih => exact ⟨by simp, by simp, ih⟩
  | case3 s ih => exact ⟨by simp, by simp, ih⟩
  | case4 s hlf ih =>
    -- an LF of its own behind the CR would have been taken for a CRLF
    refine ⟨by simp, fun _ hhead => ?_, ih⟩
    obtain ⟨ls, hsplit⟩ := List.head?_eq_some_iff.1 hhead
    have hjoin := join_split s
    rw [hsplit] at hjoin
    exact hlf (join ls) hjoin.symm
  | case5 c s _ _ _ ih => exact lossless_extendFirst c ih

theorem canonical_split (s : List Char) : Canonical (split s) :=
  ⟨consecutive_split s, lossless_split s⟩

end TextLine

namespace Segment

/-- Each of the views with one of what lies between it and the next, or the end of a buffer of `size`
bytes. -/
def withGaps (size : Nat) : List Segment → List (Segment × Segment)
  | [] => []
  | s :: rest => (s, ⟨s.buffer, s.stop, rest.head?.elim size start⟩) :: withGaps size rest

theorem elim_head?_place {buffer : String} {start : Nat} (ls : List TextLine) :
    (place buffer start ls).head?.elim (start + Text.size (join ls)) Segment.start = start := by
  cases ls <;> simp [place]

/-- The views of consecutive lines show their contents, and those of the gaps show their endings. -/
theorem withGaps_place {buffer : String} {before : List Char} {ls : List TextLine}
    (h : buffer.toList = before ++ join ls) :
    List.Forall₂ (fun p l => p.1.Shows l.string ∧ p.2.Shows (.ofList l.ending.text))
      (withGaps (Text.size buffer.toList) (place buffer (Text.size before) ls)) ls := by
  induction ls generalizing before with
  | nil => exact .nil
  | cons l ls ih =>
    have hbefore : buffer.toList = (before ++ l.text) ++ join ls := by simp [h]
    have hsize : Text.size buffer.toList =
        Text.size before + Text.size l.text + Text.size (join ls) := by
      rw [hbefore, Text.size_append, Text.size_append]
    have hcontent : (Segment.mk buffer (Text.size before)
        (Text.size before + Text.size l.content)).Shows l.string :=
      (List.forall₂_cons.1 (place_shows h)).1
    have hgap : (Segment.mk buffer (Text.size before + Text.size l.content)
        (Text.size before + Text.size l.text)).Shows (.ofList l.ending.text) := by
      refine Text.slice?_eq_some_iff.2 ⟨before ++ l.content, join ls, ?_, by simp, ?_⟩
      · simp [h, TextLine.text]
      · simp [TextLine.text, Nat.add_assoc]
    have hrest := ih hbefore
    rw [Text.size_append] at hrest
    refine .cons ⟨hcontent, ?_⟩ hrest
    rw [hsize, elim_head?_place]
    exact hgap

theorem getElem?_place (buffer : String) (start : Nat) (ls : List TextLine) (i : Nat) :
    (place buffer start ls)[i]? = ls[i]?.map fun l =>
      ⟨buffer, start + Text.size (join (ls.take i)),
        start + Text.size (join (ls.take i)) + Text.size l.content⟩ := by
  induction ls generalizing start i with
  | nil => simp [place]
  | cons l ls ih =>
    cases i with
    | zero => simp [place]
    | succ i => simp [place, ih, Nat.add_assoc]

end Segment

/-- Splitting a text into lines and joining lines to a text undo each other. The views of the lines of
a text show, with the gaps after them, canonical lines that join to the text, and the views of a text
joined from canonical lines show the contents of these lines and are where these are. -/
theorem lines_inverse_join :
    (∀ text : String, ∃ ls, Canonical ls ∧ join ls = text.toList ∧
      List.Forall₂ (fun p l => p.1.Shows l.string ∧ p.2.Shows (.ofList l.ending.text))
        (Segment.withGaps (Text.size text.toList) (Segment.lines text)) ls) ∧
    ∀ {ls : List TextLine}, Canonical ls → ∀ {text : String}, join ls = text.toList →
      List.Forall₂ (fun segment l => segment.Shows l.string) (Segment.lines text) ls ∧
      ∀ i : Nat, (Segment.lines text)[i]? = ls[i]?.map fun l =>
        Segment.mk text (Text.size (join (ls.take i)))
          (Text.size (join (ls.take i)) + Text.size l.content) := by
  constructor
  · intro text
    have htext : text.toList = [] ++ join (split text.toList) := by rw [join_split]; rfl
    exact ⟨split text.toList, canonical_split _, join_split _, Segment.withGaps_place htext⟩
  · intro ls hls text htext
    have hsplit : split text.toList = ls := by rw [← htext, split_join hls]
    refine ⟨?_, fun i => ?_⟩
    · have hshow := Segment.lines_show text
      rwa [hsplit] at hshow
    · rw [Segment.lines, hsplit, Segment.getElem?_place]
      simp only [Nat.zero_add]

theorem lines_inverse_join_mixed :
    let ls : List TextLine := [⟨['a'], .cr⟩, ⟨[], .crlf⟩, ⟨[], .lf⟩, ⟨['é'], .cr⟩, ⟨['b'], .missing⟩]
    let text := "a\r\r\n\né\rb"
    Canonical ls ∧ join ls = text.toList ∧
      List.Forall₂ (fun segment l => segment.Shows l.string) (Segment.lines text) ls ∧
      Segment.lines text =
        [⟨text, 0, 1⟩, ⟨text, 2, 2⟩, ⟨text, 4, 4⟩, ⟨text, 5, 7⟩, ⟨text, 8, 9⟩] := by
  intro ls text
  have hls : Canonical ls := ⟨by simp [ls, Consecutive, Unbroken], by decide⟩
  have htext : join ls = text.toList := by decide +kernel
  obtain ⟨hshow, hplace⟩ := lines_inverse_join.2 hls htext
  refine ⟨hls, htext, hshow, List.ext_getElem? fun i => ?_⟩
  rw [hplace]
  rcases i with _ | _ | _ | _ | _ | i <;> rfl

end Linewise
