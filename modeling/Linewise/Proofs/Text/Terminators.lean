import Linewise.Proofs.Text.Splitting
import Linewise.Proofs.Text.Views

/-! The bytes of a text outside of the views of its lines. They are the bytes of the endings, and in
UTF-8 these are all the bytes that are LF or CR. -/
namespace Linewise
open TextLine

/-- Only the one byte of an ASCII character is below 128. -/
theorem Text.toNat_of_mem_utf8EncodeChar {c : Char} {b : UInt8}
    (h : b ∈ String.utf8EncodeChar c) : b.toNat = c.toNat ∨ 128 ≤ b.toNat := by
  have hval : c.toNat = c.val.toNat := rfl
  unfold String.utf8EncodeChar at h
  dsimp only at h
  split at h
  next hsmall =>
    obtain rfl := List.mem_singleton.1 h
    left
    rw [UInt8.toNat_ofNat', hval]
    omega
  next =>
    right
    split at h
    next =>
      simp only [List.mem_cons, List.not_mem_nil, or_false] at h
      rcases h with rfl | rfl <;> rw [UInt8.toNat_ofNat'] <;> omega
    next =>
      split at h
      next =>
        simp only [List.mem_cons, List.not_mem_nil, or_false] at h
        rcases h with rfl | rfl | rfl <;> rw [UInt8.toNat_ofNat'] <;> omega
      next =>
        simp only [List.mem_cons, List.not_mem_nil, or_false] at h
        rcases h with rfl | rfl | rfl | rfl <;> rw [UInt8.toNat_ofNat'] <;> omega

theorem TextLine.bytes_of_unbroken {s : List Char} (h : Unbroken s) {b : UInt8}
    (hb : b ∈ Text.bytes s) : b ≠ 10 ∧ b ≠ 13 := by
  obtain ⟨c, hc, hmem⟩ := List.mem_flatMap.1 hb
  obtain ⟨hlf, hcr⟩ := h c hc
  have hnat := Text.toNat_of_mem_utf8EncodeChar hmem
  constructor
  · rintro rfl
    have hten : c.toNat = '\n'.toNat := by
      rcases hnat with heq | hge
      · exact heq.symm
      · exact absurd hge (by decide)
    exact hlf (Char.toNat_inj.1 hten)
  · rintro rfl
    have hthirteen : c.toNat = '\r'.toNat := by
      rcases hnat with heq | hge
      · exact heq.symm
      · exact absurd hge (by decide)
    exact hcr (Char.toNat_inj.1 hthirteen)

theorem Ending.bytes_text {e : Ending} {b : UInt8} (hb : b ∈ Text.bytes e.text) :
    b = 10 ∨ b = 13 := by
  cases e with
  | lf => exact .inl (List.mem_singleton.1 hb)
  | cr => exact .inr (List.mem_singleton.1 hb)
  | crlf =>
    rcases List.mem_cons.1 hb with h | h
    · exact .inr h
    · exact .inl (List.mem_singleton.1 h)
  | missing => cases hb

/-- In a line, the bytes of the ending are those that come after the content. -/
theorem TextLine.size_content_le_iff {l : TextLine} (h : Unbroken l.content) {k : Nat} {b : UInt8}
    (hb : (Text.bytes l.text)[k]? = some b) :
    Text.size l.content ≤ k ↔ b = 10 ∨ b = 13 := by
  rw [TextLine.text, Text.bytes_append] at hb
  by_cases hcut : k < Text.size l.content
  · rw [List.getElem?_append_left (by rwa [Text.length_bytes])] at hb
    obtain ⟨hlf, hcr⟩ := bytes_of_unbroken h (List.mem_of_getElem? hb)
    simp [hlf, hcr, hcut]
  · rw [List.getElem?_append_right (by rw [Text.length_bytes]; omega)] at hb
    have hending := Ending.bytes_text (List.mem_of_getElem? hb)
    simp [hending, Nat.le_of_not_lt hcut]

namespace Segment

def Holds (s : Segment) (n : Nat) : Prop := s.start ≤ n ∧ n < s.stop

theorem place_bounds {buffer : String} {start : Nat} {ls : List TextLine} {s : Segment}
    (h : s ∈ place buffer start ls) :
    start ≤ s.start ∧ s.start ≤ s.stop ∧ s.stop ≤ start + Text.size (join ls) := by
  induction ls generalizing start with
  | nil => cases h
  | cons l ls ih =>
    have hsize := l.size_text
    rw [join_cons, Text.size_append]
    rcases List.mem_cons.1 h with rfl | h
    · exact ⟨Nat.le_refl _, Nat.le_add_right _ _, show start + Text.size l.content ≤ _ by omega⟩
    · have hrest := ih h
      omega

/-- A position is in none of the views exactly when the byte there is one of an ending. -/
theorem not_holds_place_iff {buffer : String} {start : Nat} {ls : List TextLine}
    (hls : Consecutive ls) {k : Nat} {b : UInt8} (hb : (Text.bytes (join ls))[k]? = some b) :
    (∀ s ∈ place buffer start ls, ¬ s.Holds (start + k)) ↔ b = 10 ∨ b = 13 := by
  induction ls generalizing start k with
  | nil => simp [Text.bytes] at hb
  | cons l ls ih =>
    obtain ⟨hcontent, -, hrest⟩ := hls
    have hsize := l.size_text
    have hlater : ∀ s ∈ place buffer (start + Text.size l.text) ls,
        start + Text.size l.text ≤ s.start := fun s hs => (place_bounds hs).1
    rw [join_cons, Text.bytes_append] at hb
    simp only [place, List.forall_mem_cons, Holds]
    by_cases htext : k < Text.size l.text
    · rw [List.getElem?_append_left (by rwa [Text.length_bytes])] at hb
      rw [← size_content_le_iff hcontent hb]
      constructor
      · rintro ⟨hfirst, -⟩
        omega
      · intro hcut
        constructor
        · intro hholds
          omega
        · intro s hs hholds
          have hge := hlater s hs
          omega
    · rw [List.getElem?_append_right (by rw [Text.length_bytes]; omega), Text.length_bytes] at hb
      have hstart : start + Text.size l.text + (k - Text.size l.text) = start + k := by omega
      have hiff : (∀ s ∈ place buffer (start + Text.size l.text) ls,
          ¬ s.Holds (start + Text.size l.text + (k - Text.size l.text))) ↔ b = 10 ∨ b = 13 :=
        ih hrest hb
      rw [hstart] at hiff
      rw [← hiff]
      constructor
      · rintro ⟨-, hnone⟩
        exact hnone
      · intro hnone
        have hfirst : ¬ (start ≤ start + k ∧ start + k < start + Text.size l.content) := by omega
        exact ⟨hfirst, hnone⟩

end Segment
end Linewise
