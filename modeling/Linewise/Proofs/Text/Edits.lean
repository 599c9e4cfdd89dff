import Linewise.Proofs.Text.Splitting
import Linewise.Proofs.Text.Views

/-! Edits of a text that give one of its lines another content. -/
namespace Linewise
open TextLine

def Segment.splice (s : Segment) (content : String) : String :=
  (Segment.mk s.buffer 0 s.start).text ++ content ++
    (Segment.mk s.buffer s.stop (Text.size s.buffer.toList)).text

theorem Segment.toList_splice {before shown after : List Char} {buffer content : String}
    (h : buffer.toList = before ++ shown ++ after) :
    ((Segment.mk buffer (Text.size before) (Text.size before + Text.size shown)).splice
      content).toList = before ++ content.toList ++ after := by
  have hbefore : (Segment.mk buffer 0 (Text.size before)).Shows (.ofList before) :=
    Text.slice?_eq_some_iff.2 ⟨[], shown ++ after, by simp [h], rfl, by simp⟩
  have hafter : (Segment.mk buffer (Text.size before + Text.size shown)
      (Text.size buffer.toList)).Shows (.ofList after) :=
    Text.slice?_eq_some_iff.2 ⟨before ++ shown, [], by simp [h], by simp, by simp [h, Nat.add_assoc]⟩
  simp [splice, hbefore.text_eq, hafter.text_eq]

theorem Segment.toList_splice_place {buffer content : String} {before : List Char}
    {ls : List TextLine} (h : buffer.toList = before ++ join ls) {index : Nat} {segment : Segment}
    (hsegment : (place buffer (Text.size before) ls)[index]? = some segment) :
    (segment.splice content).toList =
      before ++ join (replaceContent index content.toList ls) := by
  induction ls generalizing before index with
  | nil => simp [place] at hsegment
  | cons l ls ih =>
    cases index with
    | zero =>
      obtain rfl := Option.some.inj hsegment
      have hparts : buffer.toList = before ++ l.content ++ (l.ending.text ++ join ls) := by
        simp [h, TextLine.text]
      rw [toList_splice hparts]
      simp [replaceContent, TextLine.text]
    | succ index =>
      have hbefore : buffer.toList = (before ++ l.text) ++ join ls := by simp [h]
      rw [ih hbefore (by rwa [Text.size_append])]
      simp [replaceContent]

theorem TextLine.map_string_replaceContent (index : Nat) (content : String) (ls : List TextLine) :
    (replaceContent index content.toList ls).map string = (ls.map string).set index content := by
  induction ls generalizing index with
  | nil => simp [replaceContent]
  | cons l ls ih =>
    cases index with
    | zero => simp [replaceContent, string]
    | succ index => simpa [replaceContent] using ih index

theorem TextLine.map_width_replaceContent (index : Nat) (content : List Char)
    (ls : List TextLine) : (replaceContent index content ls).map width = ls.map width := by
  have hwidth : width = Ending.width ∘ ending := rfl
  rw [hwidth, ← List.map_map, map_ending_replaceContent, List.map_map]

structure LineEdit where
  index : Nat
  content : String
  deriving DecidableEq, Repr

namespace LineEdit

/-- The text after the edit. There is nothing to do for an index past the end. -/
def apply (e : LineEdit) (text : String) : String :=
  match (Segment.lines text)[e.index]? with
  | some segment => segment.splice e.content
  | none => text

/-- The edit is of a line of `text`, its content ends no line, and the edited text has as many lines as
before and is not too long. -/
structure Allowed (e : LineEdit) (text : String) : Prop where
  index_lt : e.index < (Segment.lines text).length
  unbroken : Unbroken e.content.toList
  length_eq : (Segment.lines (e.apply text)).length = (Segment.lines text).length
  size_lt : Text.size (e.apply text).toList < UInt64.size

instance (e : LineEdit) (text : String) : Decidable (e.Allowed text) :=
  decidable_of_iff (e.index < (Segment.lines text).length ∧ Unbroken e.content.toList ∧
      (Segment.lines (e.apply text)).length = (Segment.lines text).length ∧
      Text.size (e.apply text).toList < UInt64.size)
    ⟨fun ⟨hindex, hcontent, hlen, hsize⟩ => ⟨hindex, hcontent, hlen, hsize⟩,
      fun h => ⟨h.index_lt, h.unbroken, h.length_eq, h.size_lt⟩⟩

theorem toList_apply {e : LineEdit} {text : String} (h : e.index < (Segment.lines text).length) :
    (e.apply text).toList = join (replaceContent e.index e.content.toList (split text.toList)) := by
  have hsegment := List.getElem?_eq_getElem h
  have htext : text.toList = [] ++ join (split text.toList) := by rw [join_split]; rfl
  unfold apply
  rw [hsegment]
  exact Segment.toList_splice_place htext hsegment

/-- An edit that is allowed changes one content and no ending. -/
theorem Allowed.split_eq {e : LineEdit} {text : String} (h : e.Allowed text) :
    split (e.apply text).toList =
      replaceContent e.index e.content.toList (split text.toList) := by
  have hlen := h.length_eq
  unfold Segment.lines at hlen
  rw [Segment.length_place, Segment.length_place] at hlen
  rw [toList_apply h.index_lt] at hlen ⊢
  exact split_join_replaceContent h.unbroken hlen

/-- Each of the edits is allowed when its turn comes. -/
def AllAllowed : List LineEdit → String → Prop
  | [], _ => True
  | e :: edits, text => e.Allowed text ∧ AllAllowed edits (e.apply text)

instance decidableAllAllowed : (edits : List LineEdit) → (text : String) →
    Decidable (AllAllowed edits text)
  | [], _ => .isTrue trivial
  | e :: edits, text =>
    have := decidableAllAllowed edits (e.apply text)
    inferInstanceAs (Decidable (e.Allowed text ∧ AllAllowed edits (e.apply text)))

end LineEdit
end Linewise
