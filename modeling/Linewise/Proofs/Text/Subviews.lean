import Linewise.Proofs.Text.Slicing

/-! Views within views. Every view there is lies between two boundaries of its buffer, a cut of it lies
within it and shows a part of its text, and a cut of a cut is a cut of the whole at shifted positions. -/
namespace Linewise

/-- What lies between two positions of a text lies in every part around them, at positions that count
from the start of the part. -/
theorem Text.slice?_of_slice? {s part inner : String} {i j a b : Nat}
    (hpart : slice? s i j = some part) (hinner : slice? s (i + a) (i + b) = some inner)
    (hle : i + b ≤ j) : slice? part a b = some inner := by
  rw [slice?_eq_some_iff] at hpart hinner ⊢
  rcases hpart with ⟨before, after, hs, hbefore, hend⟩
  rcases hinner with ⟨p, q, hs', hp, hq⟩
  have hbeforeS : before <+: s.toList := by
    rw [hs, List.append_assoc]
    exact List.prefix_append before _
  have hpartS : before ++ part.toList <+: s.toList := hs ▸ List.prefix_append _ after
  have hpS : p <+: s.toList := by
    rw [hs', List.append_assoc]
    exact List.prefix_append p _
  have hinnerS : p ++ inner.toList <+: s.toList := hs' ▸ List.prefix_append _ q
  rcases prefix_of_size_le hbeforeS hpS (by omega) with ⟨first, rfl⟩
  have hsize : size (before ++ first ++ inner.toList) ≤ size (before ++ part.toList) := by
    rw [size_append, size_append before part.toList]
    omega
  rcases prefix_of_size_le hinnerS hpartS hsize with ⟨rest, hrest⟩
  rw [size_append] at hp hq
  use first, rest
  constructor
  · simpa using hrest.symm
  · omega

namespace Segment

/-- The view lies in its buffer, between two boundaries in order, and what it shows can be cut out. -/
structure Valid (s : Segment) : Prop where
  start_le : s.start ≤ s.stop
  stop_le : s.stop ≤ Text.size s.buffer.toList
  isBoundary_start : Text.IsBoundary s.buffer.toList s.start
  isBoundary_stop : Text.IsBoundary s.buffer.toList s.stop
  shows_text : s.Shows s.text

/-- `t` is the part of `s` from byte `a` to byte `b`, a view of the same buffer. -/
structure HasPart (s : Segment) (a b : Nat) (t : Segment) : Prop where
  le : a ≤ b
  buffer_eq : t.buffer = s.buffer
  start_eq : t.start = s.start + a
  stop_eq : t.stop = s.start + b
  stop_le : t.stop ≤ s.stop
  text_eq : Text.slice? s.text a b = some t.text

theorem Obtained.valid {s : Segment} (h : s.Obtained) : s.Valid := by
  have hshows := h.shows_text
  have hcut : (Text.slice? s.buffer s.start s.stop).isSome = true := Option.isSome_of_eq_some hshows
  rcases Text.isSome_slice?_iff.1 hcut with ⟨hle, hstart, hstop⟩
  exact ⟨hle, hshows.stop_le, hstart, hstop, hshows⟩

theorem ofRange?_eq_some_iff {buffer : String} {a b : Nat} {s : Segment} :
    ofRange? buffer a b = some s ↔
      (∃ text, Text.slice? buffer a b = some text) ∧ s = ⟨buffer, a, b⟩ := by
  unfold ofRange?
  cases Text.slice? buffer a b <;> simp [eq_comm]

/-- Within a view, and within the offsets, a cut is a range of the buffer. -/
theorem slice_eq_ofRange? {s : Segment} {a b : Nat} (hab : a ≤ b) (hb : b ≤ s.size)
    (hfit : s.start + b < UInt64.size) :
    s.slice a b = .ok (ofRange? s.buffer (s.start + a) (s.start + b)) := by
  have hcheck {n : Nat} (hn : n < UInt64.size) : Offset.check n = .ok (.ofNat n) :=
    Offset.check_eq_ok_iff.2 ⟨hn, UInt64.toNat_ofNat_of_lt' hn⟩
  have ha : s.start + a < UInt64.size := by omega
  unfold slice
  rw [if_neg (Nat.not_lt.2 hb), hcheck ha, hcheck hfit]
  simp only [bind, Except.bind, pure, Except.pure]
  rw [UInt64.toNat_ofNat_of_lt' ha, UInt64.toNat_ofNat_of_lt' hfit]

theorem slice_eq_some {s t : Segment} {a b : Nat} (h : s.slice a b = .ok (some t)) :
    b ≤ s.size ∧ s.start + b < UInt64.size ∧
      ofRange? s.buffer (s.start + a) (s.start + b) = some t := by
  unfold slice at h
  split at h
  · cases h
  next hb =>
    simp only [bind_eq_ok_iff, pure_eq_ok_iff, Offset.check_eq_ok_iff] at h
    rcases h with ⟨start, ⟨-, hstart⟩, stop, ⟨hfit, hstop⟩, hrange⟩
    rw [hstart, hstop] at hrange
    exact ⟨Nat.le_of_not_lt hb, hfit, hrange⟩

theorem Obtained.hasPart {s t : Segment} (h : s.Obtained) {a b : Nat}
    (hslice : s.slice a b = .ok (some t)) : s.HasPart a b t := by
  have hvalid := h.valid
  rcases slice_eq_some hslice with ⟨hb, -, hrange⟩
  rcases ofRange?_eq_some_iff.1 hrange with ⟨⟨text, htext⟩, rfl⟩
  have hshows : (Segment.mk s.buffer (s.start + a) (s.start + b)).Shows text := htext
  have hordered : s.start + b = s.start + a + Text.size text.toList := hshows.stop_eq
  have hsize : s.start + s.size = s.stop := Nat.add_sub_of_le hvalid.start_le
  have hstop : s.start + b ≤ s.stop := by omega
  refine ⟨by omega, rfl, rfl, rfl, hstop, ?_⟩
  rw [hshows.text_eq]
  exact Text.slice?_of_slice? hvalid.shows_text htext hstop

/-- A cut of a cut of a view is a cut of the view, or else neither is a view. -/
theorem slice_slice {s t : Segment} {a b c d : Nat} (h : s.slice a b = .ok (some t)) (hab : a ≤ b)
    (hcd : c ≤ d) (hd : d ≤ b - a) :
    ∃ cut, t.slice c d = .ok cut ∧ s.slice (a + c) (a + d) = .ok cut := by
  rcases slice_eq_some h with ⟨hb, hfit, hrange⟩
  rcases ofRange?_eq_some_iff.1 hrange with ⟨-, rfl⟩
  have hinner : d ≤ (Segment.mk s.buffer (s.start + a) (s.start + b)).size := by
    unfold size
    dsimp only
    omega
  have hcut := slice_eq_ofRange? hcd hinner (show s.start + a + d < UInt64.size by omega)
  have houter : s.slice (a + c) (a + d) = _ :=
    slice_eq_ofRange? (Nat.add_le_add_left hcd a) (by omega) (by omega)
  rw [← Nat.add_assoc, ← Nat.add_assoc] at houter
  exact ⟨_, hcut, houter⟩

/-- All views are valid, the cuts of a view are its parts, and they can be cut again as the view can,
with the same result at the same place of the buffer. -/
theorem obtained_views {s : Segment} (h : s.Obtained) :
    s.Valid ∧ ∀ {a b : Nat} {t : Segment}, s.slice a b = .ok (some t) →
      s.HasPart a b t ∧ t.Valid ∧
        ∀ {c d : Nat}, c ≤ d → d ≤ b - a →
          ∃ cut, t.slice c d = .ok cut ∧ s.slice (a + c) (a + d) = .ok cut := by
  use h.valid
  intro a b t hslice
  have hpart := h.hasPart hslice
  use hpart, (Obtained.slice h hslice).valid
  intro c d hcd hd
  exact slice_slice hslice hpart.le hcd hd

/-- A view of three characters, cut after the second. The cut can be cut between its characters, at the
place where the view can be, and cannot be cut within the first one. -/
theorem obtained_views_accent :
    let s : Segment := ⟨"xéyb", 1, 5⟩
    let t : Segment := ⟨"xéyb", 1, 4⟩
    s.Obtained ∧ s.slice 0 3 = .ok (some t) ∧ s.Valid ∧ t.Valid ∧ s.HasPart 0 3 t ∧
      t.slice 2 3 = .ok (some ⟨"xéyb", 3, 4⟩) ∧ t.slice 1 2 = .ok none := by
  intro s t
  have hs : s.Obtained := .ofRange? (show ofRange? "xéyb" 1 5 = some s by decide +kernel)
  have hslice : s.slice 0 3 = .ok (some t) := by decide +kernel
  rcases obtained_views hs with ⟨hvalid, hcuts⟩
  rcases hcuts hslice with ⟨hpart, hvalid', hagain⟩
  rcases hagain (c := 2) (d := 3) (by decide) (by decide) with ⟨between, hbetween, hview⟩
  rcases hagain (c := 1) (d := 2) (by decide) (by decide) with ⟨within, hwithin, hview'⟩
  have hsome : s.slice (0 + 2) (0 + 3) = .ok (some ⟨"xéyb", 3, 4⟩) := by decide +kernel
  have hnone : s.slice (0 + 1) (0 + 2) = .ok none := by decide +kernel
  rw [hbetween, hwithin, ← hview, ← hview', hsome, hnone]
  exact ⟨hs, hslice, hvalid, hvalid', hpart, rfl, rfl⟩

end Segment
end Linewise
