import Linewise.Proofs.Text.Views

/-! Views cut out of other views. A cut is asked for by positions in the view and made by positions in
the buffer, so that it has to be shown that both fall between the same characters. The end is held to
the view before anything is added to it, but the beginning is not, and a beginning far out of range is
no offset any more once it counts from the start of the buffer. -/
namespace Linewise

namespace Text

/-- Of two prefixes of a text, the one with fewer bytes is a prefix of the other. -/
theorem prefix_of_size_le {p q s : List Char} (hp : p <+: s) (hq : q <+: s)
    (hsize : size p ≤ size q) : p <+: q := by
  rcases List.prefix_or_prefix_of_prefix hp hq with h | ⟨t, rfl⟩
  · exact h
  · rw [size_append] at hsize
    have hnil : t = [] := size_eq_zero_iff.1 (by omega)
    simp [hnil]

/-- A text can be cut between two positions exactly if they are boundaries and in order. -/
theorem isSome_slice?_iff {s : String} {a b : Nat} :
    (slice? s a b).isSome = true ↔ a ≤ b ∧ IsBoundary s.toList a ∧ IsBoundary s.toList b := by
  rw [Option.isSome_iff_exists]
  simp only [slice?_eq_some_iff]
  constructor
  · rintro ⟨t, p, q, hs, rfl, rfl⟩
    have hcut : s.toList = p ++ (t.toList ++ q) := by rw [hs, List.append_assoc]
    exact ⟨Nat.le_add_right _ _, ⟨p, _, hcut, rfl⟩, ⟨_, q, hs, size_append _ _⟩⟩
  · rintro ⟨hab, ⟨p, q, hp, rfl⟩, ⟨p', q', hp', rfl⟩⟩
    obtain ⟨t, rfl⟩ := prefix_of_size_le (hp ▸ List.prefix_append p q)
      (hp' ▸ List.prefix_append p' q') hab
    refine ⟨.ofList t, p, q', ?_, rfl, ?_⟩
    · rw [String.toList_ofList, hp']
    · rw [String.toList_ofList, size_append]

/-- The boundaries of a part of a text are those of the text that lie within the part. -/
theorem isBoundary_append_iff {p t q : List Char} {n : Nat} (hn : n ≤ size t) :
    IsBoundary (p ++ t ++ q) (size p + n) ↔ IsBoundary t n := by
  constructor
  · rintro ⟨u, v, huv, hu⟩
    have hall : u <+: p ++ t ++ q := huv ▸ List.prefix_append u v
    have hpt : p ++ t <+: p ++ t ++ q := List.prefix_append _ q
    have hpu : p <+: u :=
      prefix_of_size_le ((List.prefix_append p t).trans hpt) hall (by omega)
    have hut : u <+: p ++ t := prefix_of_size_le hall hpt (by rw [size_append]; omega)
    obtain ⟨t₁, rfl⟩ := hpu
    obtain ⟨t₂, ht⟩ := hut
    rw [List.append_assoc, List.append_cancel_left_eq] at ht
    rw [size_append] at hu
    exact ⟨t₁, t₂, ht.symm, by omega⟩
  · rintro ⟨t₁, t₂, rfl, rfl⟩
    exact ⟨p ++ t₁, t₂ ++ q, by simp, size_append p t₁⟩

end Text

namespace Segment

/-- The ways to come by a view: of a whole text, of a range, of a line, or out of another view. -/
inductive Obtained : Segment → Prop
  | whole (text : String) : Obtained (whole text)
  | ofRange? {buffer : String} {a b : Nat} {s : Segment} :
      ofRange? buffer a b = some s → Obtained s
  | lines {text : String} {s : Segment} : s ∈ lines text → Obtained s
  | slice {s t : Segment} {a b : Nat} : Obtained s → s.slice a b = .ok (some t) → Obtained t

theorem Shows.shows_text {s : Segment} {text : String} (h : s.Shows text) : s.Shows s.text := by
  rw [h.text_eq]
  exact h

theorem shows_text_of_ofRange? {buffer : String} {a b : Nat} {s : Segment}
    (h : ofRange? buffer a b = some s) : s.Shows s.text := by
  obtain ⟨text, htext, rfl⟩ := Option.map_eq_some_iff.1 h
  exact Shows.shows_text htext

/-- Whichever way it came about, a view shows whole characters of its buffer. -/
theorem Obtained.shows_text {s : Segment} (h : s.Obtained) : s.Shows s.text := by
  cases h with
  | whole text => exact (shows_whole text).shows_text
  | ofRange? hrange => exact shows_text_of_ofRange? hrange
  | lines hline => exact lines_shows_text _ s hline
  | slice _ hslice =>
    unfold Segment.slice at hslice
    split at hslice
    · cases hslice
    · simp only [bind_eq_ok_iff, pure_eq_ok_iff] at hslice
      obtain ⟨start, -, stop, -, hrange⟩ := hslice
      exact shows_text_of_ofRange? hrange

theorem Shows.stop_le {s : Segment} {text : String} (h : s.Shows text) :
    s.stop ≤ Text.size s.buffer.toList := by
  obtain ⟨before, after, hbuffer, hstart, hstop⟩ := Text.slice?_eq_some_iff.1 h
  rw [hbuffer, Text.size_append, Text.size_append]
  omega

/-- The view from byte `a` to byte `b` of this one, if they are in order, within the view, and
boundaries of the text that it shows. -/
def view? (s : Segment) (a b : Nat) : Option Segment :=
  if a ≤ b ∧ b ≤ s.size ∧ Text.IsBoundary s.text.toList a ∧ Text.IsBoundary s.text.toList b then
    some ⟨s.buffer, s.start + a, s.start + b⟩
  else none

/-- Positions within a view can be cut at exactly where the buffer can. -/
theorem Shows.ofRange?_eq_view? {s : Segment} {text : String} (h : s.Shows text) {a b : Nat}
    (hb : b ≤ s.size) : ofRange? s.buffer (s.start + a) (s.start + b) = s.view? a b := by
  obtain ⟨before, after, hbuffer, hstart, -⟩ := Text.slice?_eq_some_iff.1 h
  have hsize := h.size_eq
  have hboundary {n : Nat} (hn : n ≤ b) :
      Text.IsBoundary s.buffer.toList (s.start + n) ↔ Text.IsBoundary text.toList n := by
    rw [hbuffer, ← hstart]
    exact Text.isBoundary_append_iff (by omega)
  have hcut : (Text.slice? s.buffer (s.start + a) (s.start + b)).isSome = true ↔
      a ≤ b ∧ b ≤ s.size ∧ Text.IsBoundary text.toList a ∧ Text.IsBoundary text.toList b := by
    rw [Text.isSome_slice?_iff, Nat.add_le_add_iff_left]
    constructor
    · rintro ⟨hab, ha, hb'⟩
      exact ⟨hab, hb, (hboundary hab).1 ha, (hboundary (Nat.le_refl b)).1 hb'⟩
    · rintro ⟨hab, -, ha, hb'⟩
      exact ⟨hab, (hboundary hab).2 ha, (hboundary (Nat.le_refl b)).2 hb'⟩
  unfold view? ofRange?
  rw [h.text_eq]
  cases hslice : Text.slice? s.buffer (s.start + a) (s.start + b) with
  | none =>
    rw [hslice] at hcut
    rw [if_neg fun hall => absurd (hcut.2 hall) (by simp), Option.map_none]
  | some part =>
    rw [hslice] at hcut
    rw [if_pos (hcut.1 rfl), Option.map_some]

/-- What a cut comes to: the start is added to the beginning before that is held to the view. -/
theorem Shows.slice_eq_ite {s : Segment} {text : String} (h : s.Shows text)
    (hbuffer : Text.size s.buffer.toList < UInt64.size) (a b : Nat) :
    s.slice a b =
      if b ≤ s.size ∧ UInt64.size ≤ s.start + a then .error .offsetOverflow
      else .ok (s.view? a b) := by
  have hstop := h.stop_eq
  have hsize := h.size_eq
  have hle := h.stop_le
  unfold slice
  by_cases hb : b ≤ s.size
  · rw [if_neg (Nat.not_lt.2 hb)]
    by_cases ha : UInt64.size ≤ s.start + a
    · rw [if_pos ⟨hb, ha⟩, Offset.check_eq_error_iff.2 ⟨ha, rfl⟩]
      rfl
    · rw [if_neg fun hall => ha hall.2]
      have hcheck {n : Nat} (hn : n < UInt64.size) : Offset.check n = .ok (.ofNat n) :=
        Offset.check_eq_ok_iff.2 ⟨hn, UInt64.toNat_ofNat_of_lt' hn⟩
      rw [hcheck (Nat.lt_of_not_le ha), hcheck (show s.start + b < UInt64.size by omega)]
      simp only [bind, Except.bind, pure, Except.pure]
      rw [UInt64.toNat_ofNat_of_lt' (Nat.lt_of_not_le ha),
        UInt64.toNat_ofNat_of_lt' (by omega), h.ofRange?_eq_view? hb]
  · rw [if_pos (Nat.lt_of_not_le hb), if_neg fun hall => hb hall.1, view?,
      if_neg fun hall => hb hall.2.1]

/-- A cut gives the view between its two positions, or none if there is no such view, as long as the
beginning is still an offset when it counts from the start of the buffer. It has no result for any other
beginning, unless the end is past that of the view. -/
theorem slice_eq_view?_iff {s : Segment} (h : s.Obtained)
    (hbuffer : Text.size s.buffer.toList < UInt64.size) (a b : Nat) :
    (s.slice a b = .ok (s.view? a b) ↔ (b ≤ s.size → s.start + a < UInt64.size)) ∧
      ∀ fault, s.slice a b = .error fault ↔
        b ≤ s.size ∧ UInt64.size ≤ s.start + a ∧ fault = .offsetOverflow := by
  have hroom : (b ≤ s.size → s.start + a < UInt64.size) ↔
      ¬ (b ≤ s.size ∧ UInt64.size ≤ s.start + a) := by omega
  rw [h.shows_text.slice_eq_ite hbuffer]
  constructor
  · rw [hroom]
    split <;> simp [*]
  · intro fault
    split
    next hout => simp [hout.1, hout.2, eq_comm]
    next hin =>
      constructor
      · intro herror
        cases herror
      · rintro ⟨hb, ha, -⟩
        exact absurd ⟨hb, ha⟩ hin

/-- A view in the middle of a text, cut at its boundaries, within a character, and out of range. -/
theorem slice_eq_view?_iff_accent :
    let s : Segment := ⟨"xéb", 1, 4⟩
    s.Obtained ∧ Text.size s.buffer.toList < UInt64.size ∧
      s.slice 0 2 = .ok (some ⟨"xéb", 1, 3⟩) ∧ s.slice 1 3 = .ok none ∧ s.slice 3 2 = .ok none ∧
      s.slice (UInt64.size - 1) 4 = .ok none ∧
      s.slice (UInt64.size - 1) 3 = .error .offsetOverflow := by
  intro s
  have hs : s.Obtained := .ofRange? (show ofRange? "xéb" 1 4 = some s by decide +kernel)
  have hbuffer : Text.size s.buffer.toList < UInt64.size := by decide +kernel
  have hcut {a b : Nat} {cut : Option Segment} (hroom : b ≤ s.size → s.start + a < UInt64.size)
      (hview : s.view? a b = cut) : s.slice a b = .ok cut := by
    rw [(slice_eq_view?_iff hs hbuffer a b).1.2 hroom, hview]
  have hover : s.slice (UInt64.size - 1) 3 = .error .offsetOverflow :=
    ((slice_eq_view?_iff hs hbuffer _ _).2 _).2 ⟨by decide +kernel, by decide +kernel, rfl⟩
  exact ⟨hs, hbuffer, hcut (by decide +kernel) (by decide +kernel),
    hcut (by decide +kernel) (by decide +kernel), hcut (by decide +kernel) (by decide +kernel),
    hcut (by decide +kernel) (by decide +kernel), hover⟩

/-- There is no view from the last of all offsets to the first byte, but to ask for it has no result. -/
theorem slice_overflows :
    let s : Segment := ⟨"xab", 1, 3⟩
    s.Obtained ∧ s.view? (UInt64.size - 1) 0 = none ∧
      s.slice (UInt64.size - 1) 0 = .error .offsetOverflow := by
  intro s
  have hs : s.Obtained := .ofRange? (show ofRange? "xab" 1 3 = some s by decide +kernel)
  exact ⟨hs, by decide +kernel, by decide +kernel⟩

end Segment
end Linewise
