import Linewise.Proofs.Document.Rebuild
import Linewise.Proofs.Document.Renewal
import Linewise.Proofs.Document.Strict

/-! Documents after any updates. Each update may be made with another tokenizer and with texts that have
nothing to do with those of the one before. There is a width for each line all the same, and from the line
that an update begins with on all lines are where its texts and the widths have them start. -/
namespace Linewise.Document

/-- The documents that come of one made from a text or from lines, or of the empty one, by updates. Each of
these has a tokenizer, texts and an index of its own. -/
inductive Reached : Document → Prop where
  | empty : Reached .empty
  | ofText {σ : Type} (t : Tokenizer σ) {text : String} {s s' : σ} {d : Document}
      (h : Document.ofText t text s = .ok (d, s')) : Reached d
  | ofLines {σ : Type} (t : Tokenizer σ) {texts : List String} {s s' : σ} {d : Document}
      (h : Document.ofLines t texts s = .ok (d, s')) : Reached d
  | update {σ : Type} (t : Tokenizer σ) {texts : List String} {index : Nat} {s s' : σ}
      {d d' : Document} (hd : Reached d) (h : d.update t texts index s = .ok (d', s')) : Reached d'

/-- There is a line and a width for each text, and the lines from `index` on are where the texts and the
widths have them start. -/
structure LaidOut (d : Document) (texts : List String) (index : Nat) : Prop where
  length_lines : d.lines.length = texts.length
  length_endings : d.endings.length = texts.length
  fits : extent texts d.endings < UInt64.size
  starts_eq : (d.lines.map Line.start).drop index = (startsFrom 0 texts d.endings).drop index

variable {σ : Type} {t : Tokenizer σ} {d d' : Document} {texts : List String} {index : Nat}

theorem LaidOut.length_eq (h : LaidOut d texts index) : d.endings.length = d.lines.length :=
  h.length_endings.trans h.length_lines.symm

theorem LaidOut.toNat_start (h : LaidOut d texts index) {j : Nat} (hj : index ≤ j) {line : Line}
    (hline : d.lines[j]? = some line) :
    line.start.toNat =
      ((texts.take j).map fun text => Text.size text.toList).sum + (d.endings.take j).sum := by
  obtain ⟨k, rfl⟩ := Nat.exists_eq_add_of_le hj
  have hlt : index + k < texts.length := h.length_lines ▸ (List.getElem?_eq_some_iff.1 hline).1
  have hstart : some line.start = (startsFrom 0 texts d.endings)[index + k]? := by
    rw [← List.getElem?_drop, ← h.starts_eq, List.getElem?_drop, List.getElem?_map, hline]
    rfl
  rw [getElem?_startsFrom, if_pos hlt, Option.some_inj, Nat.zero_add] at hstart
  have hle := extent_take_le texts d.endings (index + k)
  rw [hstart, ← extent_take_eq_sum h.length_endings]
  exact UInt64.toNat_ofNat_of_lt' (Nat.lt_of_le_of_lt hle h.fits)

theorem laidOut_build {endings : List Nat} (hlen : endings.length = texts.length) {s s' : σ}
    (h : build t texts endings s = .ok (d, s')) (index : Nat) : LaidOut d texts index := by
  have hlines := length_lines_build h
  have hstart := map_start_build h
  obtain ⟨starts, hstarts, h⟩ := bind_eq_ok_iff.1 h
  obtain ⟨⟨lines, s''⟩, -, h⟩ := bind_eq_ok_iff.1 h
  obtain ⟨rfl, rfl⟩ := Prod.mk.inj (pure_eq_ok_iff.1 h)
  exact ⟨hlines, hlen, by simpa using (lineStarts_eq_ok_iff.1 hstarts).1, by rw [hstart]⟩

theorem laidOut_ofText {text : String} {s s' : σ} (h : ofText t text s = .ok (d, s')) :
    LaidOut d ((TextLine.split text.toList).map TextLine.string) 0 := by
  rw [ofText_eq_build] at h
  exact laidOut_build (by simp) h 0

theorem laidOut_ofLines {s s' : σ} (h : ofLines t texts s = .ok (d, s')) (index : Nat) :
    LaidOut d texts index :=
  laidOut_build (List.length_map _) h index

/-- An update lays the lines out from its own on. Those before it may still be those of other texts. -/
theorem laidOut_update (hd : d.endings.length = d.lines.length) (hindex : index < texts.length)
    {s s' : σ} (h : d.update t texts index s = .ok (d', s')) : LaidOut d' texts index := by
  by_cases hlen : d.lines.length = texts.length
  · obtain ⟨hfit, anew, settled, hanalysis, -, rfl⟩ := exists_reanalyzeFrom_of_update hlen hindex h
    obtain ⟨hanew, -⟩ := update_eq_of_reanalyzeFrom hlen hindex hfit hanalysis
    have hrenewed := hanew.renewed hlen (Nat.le_of_lt hindex)
    exact ⟨hrenewed.length_eq.trans hlen, hd.trans hlen, hfit, hrenewed.starts_eq⟩
  · rw [update_eq_ofLines hindex hlen] at h
    exact laidOut_ofLines h index

/-- The step: an update leaves a width for each line. -/
theorem length_endings_update (hd : d.endings.length = d.lines.length) {s s' : σ}
    (h : d.update t texts index s = .ok (d', s')) : d'.endings.length = d'.lines.length := by
  by_cases hindex : index < texts.length
  · exact (laidOut_update hd hindex h).length_eq
  · rw [update_eq_self (Nat.le_of_not_lt hindex)] at h
    obtain ⟨rfl, -⟩ := Prod.mk.inj (Except.ok.inj h)
    exact hd

/-- The run: there is a width for each line after any updates. -/
theorem Reached.length_endings (h : Reached d) : d.endings.length = d.lines.length := by
  induction h with
  | empty => rfl
  | ofText t h => exact (laidOut_ofText h).length_eq
  | ofLines t h => exact (laidOut_ofLines h 0).length_eq
  | update t _ h ih => exact length_endings_update ih h

/-- After any updates there is a width for each line, so that no further one reads past an end or misses a
width. From its own on the lines then start after the texts and the widths before them, whatever the texts
of the updates before were. -/
theorem reached_aligned :
    (∀ {σ : Type} (t : Tokenizer σ) (text : String) (s : σ),
      Strict.ofText t text s = Strict.lift (ofText t text s)) ∧
    (∀ {σ : Type} (t : Tokenizer σ) (texts : List String) (s : σ),
      Strict.ofLines t texts s = Strict.lift (ofLines t texts s)) ∧
    ∀ {d : Document}, Reached d →
      d.endings.length = d.lines.length ∧
      (∀ {σ : Type} (t : Tokenizer σ) (texts : List String) (index : Nat) (s : σ),
        Strict.update t d texts index s = Strict.lift (d.update t texts index s)) ∧
      ∀ {σ : Type} {t : Tokenizer σ} {texts : List String} {index : Nat} {s s' : σ} {d' : Document},
        index < texts.length → d.update t texts index s = .ok (d', s') →
          d'.lines.length = texts.length ∧
          ∀ {j : Nat} {line : Line}, index ≤ j → d'.lines[j]? = some line →
            line.start.toNat = ((texts.take j).map fun text => Text.size text.toList).sum +
              (d'.endings.take j).sum := by
  refine ⟨Strict.ofText_eq, Strict.ofLines_eq, fun hd => ?_⟩
  have hlen := hd.length_endings
  refine ⟨hlen, fun t => Strict.update_eq t hlen, fun hindex hrun => ?_⟩
  have hout := laidOut_update hlen hindex hrun
  exact ⟨hout.length_lines, fun hj hline => hout.toNat_start hj hline⟩

/-- Three sets of texts that have nothing in common but their number. The last line is where the texts of
the second update and the endings of the first text have it start, and the line before it is still where
the first update has put it. -/
theorem reached_aligned_stale :
    let text := "(\r\na\nb"
    let s : Traced := .start (Grammar.Parens.tokenizer "parens" 0)
    let plain : Traced := .start (.plain .new)
    ∃ d s₁ d₁ s₂ d₂ s₃ line, ofText Traced.tokenizer text s = .ok (d, s₁) ∧
      d.update Traced.tokenizer ["xy", "z", "w"] 1 plain = .ok (d₁, s₂) ∧ Reached d₁ ∧
      d₁.endings.length = d₁.lines.length ∧
      d₁.update Traced.tokenizer ["", "long", "q"] 2 s₁ = .ok (d₂, s₃) ∧
      Strict.update Traced.tokenizer d₁ ["", "long", "q"] 2 s₁ = .ok (d₂, s₃) ∧
      d₂.endings = [2, 1, 0] ∧ d₂.lines[2]? = some line ∧ line.start.toNat = 7 ∧
      d₂.lines.map Line.start = [0, 4, 7] := by
  intro text s plain
  have hrun : (do
      let (d, s₁) ← ofText Traced.tokenizer text s
      let (d₁, _) ← d.update Traced.tokenizer ["xy", "z", "w"] 1 plain
      let (d₂, _) ← d₁.update Traced.tokenizer ["", "long", "q"] 2 s₁
      return (d₂.endings, d₂.lines.map Line.start)) =
        (.ok ([2, 1, 0], [0, 4, 7]) : Except Fault _) := by
    decide +kernel
  obtain ⟨⟨d, s₁⟩, hbuild, hrun⟩ := bind_eq_ok_iff.1 hrun
  obtain ⟨⟨d₁, s₂⟩, hfirst, hrun⟩ := bind_eq_ok_iff.1 hrun
  obtain ⟨⟨d₂, s₃⟩, hsecond, hrun⟩ := bind_eq_ok_iff.1 hrun
  obtain ⟨hendings, hstarts⟩ := Prod.mk.inj (pure_eq_ok_iff.1 hrun)
  have hreached : Reached d₁ := .update _ (.ofText _ hbuild) hfirst
  obtain ⟨hlen, hstrict, hplaces⟩ := reached_aligned.2.2 hreached
  obtain ⟨hlines, hplace⟩ := hplaces (show 2 < ["", "long", "q"].length by decide) hsecond
  have hline := List.getElem?_eq_getElem (show 2 < d₂.lines.length by rw [hlines]; decide)
  have hstart := hplace (Nat.le_refl 2) hline
  rw [hendings] at hstart
  exact ⟨d, s₁, d₁, s₂, d₂, s₃, _, hbuild, hfirst, hreached, hlen, hsecond,
    (hstrict _ _ _ _).trans (congrArg Strict.lift hsecond), hendings, hline, hstart, hstarts⟩

end Linewise.Document
