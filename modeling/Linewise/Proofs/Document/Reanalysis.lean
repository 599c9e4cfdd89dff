import Linewise.Proofs.Document.Updating

/-! An update in its two parts. Lines are analyzed anew up to the first that keeps its shape, and the
lines after it are moved to where they start now. What the tokenizer does decides the first part alone,
and what room there is decides the second. -/
namespace Linewise

variable {σ : Type}

namespace Document

/-- The lines of the slots analyzed anew up to the first that keeps its shape, and the slots after it. -/
def reanalyze (t : Tokenizer σ) :
    List Slot → Kind → σ → Except Fault (List Line × List Slot × σ)
  | [], _, s => .ok ([], [], s)
  | slot :: rest, kind, s => do
    let (line, s) ← t.line slot.text slot.start kind s
    if slot.cached.sameShape line then return ([line], rest, s)
    else
      let (anew, settled, s) ← reanalyze t rest line.continuation s
      return (line :: anew, settled, s)

variable {t : Tokenizer σ}

theorem settle_eq_reanalyze (slots : List Slot) (kind : Kind) (s : σ) :
    settle t slots kind s = do
      let (anew, settled, s) ← reanalyze t slots kind s
      let moved ← settled.mapM fun slot => slot.cached.rebase slot.start
      return (anew ++ moved, s) := by
  induction slots generalizing kind s with
  | nil => rfl
  | cons slot rest ih =>
    rw [settle, reanalyze]
    cases t.line slot.text slot.start kind s with
    | error fault => rfl
    | ok result =>
      obtain ⟨line, s₁⟩ := result
      simp only [bind, Except.bind, ih]
      split
      next => rfl
      next =>
        cases reanalyze t rest line.continuation s₁ with
        | error fault => rfl
        | ok result =>
          obtain ⟨anew, settled, s₂⟩ := result
          simp only [pure, Except.pure]
          cases settled.mapM fun slot => slot.cached.rebase slot.start <;> rfl

/-- The first of the texts have been analyzed anew at their places, one after the other. None of the
lines but the last has kept the shape of the cached one, and the last one has unless it is the last of
all. -/
structure Reanalyzed (t : Tokenizer σ) (places : List (String × Offset)) (cached : List Line)
    (kind : Kind) (s : σ) (anew : List Line) (s' : σ) : Prop where
  length_pos : places ≠ [] → 0 < anew.length
  length_le : anew.length ≤ places.length
  lines_eq : t.lines (places.take anew.length) kind s = .ok (anew, s')
  changed : ∀ j, j + 1 < anew.length → anew[j]?.map Line.shape ≠ cached[j]?.map Line.shape
  kept : anew.length < places.length → ∀ j, j + 1 = anew.length →
    anew[j]?.map Line.shape = cached[j]?.map Line.shape

def Slot.place (slot : Slot) : String × Offset := (slot.text, slot.start)

theorem reanalyzed {slots settled : List Slot} {kind : Kind} {s s' : σ} {anew : List Line}
    (h : reanalyze t slots kind s = .ok (anew, settled, s')) :
    Reanalyzed t (slots.map Slot.place) (slots.map Slot.cached) kind s anew s' ∧
      settled = slots.drop anew.length := by
  induction slots generalizing kind s anew with
  | nil =>
    obtain ⟨rfl, rfl, rfl⟩ : [] = anew ∧ [] = settled ∧ s = s' := by simpa [reanalyze] using h
    exact ⟨⟨fun h => absurd rfl h, Nat.le_refl _, rfl, by simp, by simp⟩, rfl⟩
  | cons slot rest ih =>
    obtain ⟨⟨line, s₁⟩, hline, h⟩ := bind_eq_ok_iff.1 h
    by_cases hsame : slot.cached.sameShape line = true
    · obtain ⟨rfl, rfl, rfl⟩ : [line] = anew ∧ rest = settled ∧ s₁ = s' := by
        simpa [hsame, pure_eq_ok_iff] using h
      refine ⟨⟨fun _ => Nat.zero_lt_one, by simp, ?_, by simp, ?_⟩, rfl⟩
      · exact bind_eq_ok_iff.2 ⟨_, hline, rfl⟩
      · intro _ j hj
        obtain rfl : j = 0 := by simpa using hj
        simp [Line.sameShape_iff_shape.1 hsame]
    · simp only [if_neg hsame, bind_eq_ok_iff, pure_eq_ok_iff] at h
      obtain ⟨⟨lines, settled', s₂⟩, hrest, h⟩ := h
      obtain ⟨rfl, rfl, rfl⟩ : line :: lines = anew ∧ settled' = settled ∧ s₂ = s' := by
        simpa using h
      obtain ⟨hspec, rfl⟩ := ih hrest
      refine ⟨⟨fun _ => Nat.succ_pos _, Nat.succ_le_succ hspec.length_le, ?_, ?_, ?_⟩, rfl⟩
      · exact bind_eq_ok_iff.2 ⟨_, hline, bind_eq_ok_iff.2 ⟨_, hspec.lines_eq, rfl⟩⟩
      · intro j hj
        cases j with
        | zero =>
          intro hshape
          exact hsame (Line.sameShape_iff_shape.2 (Option.some.inj hshape).symm)
        | succ j => exact hspec.changed j (Nat.lt_of_succ_lt_succ hj)
      · intro hlt j hj
        have hlt' : lines.length < (rest.map Slot.place).length := Nat.lt_of_succ_lt_succ hlt
        cases j with
        | zero =>
          have hnone : lines.length = 0 := (Nat.succ.inj hj).symm
          have hpos := hspec.length_pos (List.ne_nil_of_length_pos (by omega))
          omega
        | succ j => exact hspec.kept hlt' j (Nat.succ.inj hj)

variable {texts : List String} {starts : List Offset} {lines : List Line}

theorem map_place_slots (hlen : lines.length = texts.length) :
    (slots texts starts lines).map Slot.place = texts.zip starts := by
  induction texts generalizing starts lines with
  | nil => rfl
  | cons text texts ih =>
    cases starts with
    | nil => rfl
    | cons start starts =>
      cases lines with
      | nil => cases hlen
      | cons line lines => simp [slots_cons, Slot.place, ih (Nat.succ.inj hlen)]

def Slot.move (slot : Slot) : Line × Offset := (slot.cached, slot.start)

theorem map_move_slots (hlen : lines.length = texts.length)
    (hstarts : starts.length = texts.length) :
    (slots texts starts lines).map Slot.move = lines.zip starts := by
  induction texts generalizing starts lines with
  | nil =>
    obtain rfl := List.length_eq_zero_iff.1 hlen
    rfl
  | cons text texts ih =>
    cases starts with
    | nil => cases hstarts
    | cons start starts =>
      cases lines with
      | nil => cases hlen
      | cons line lines =>
        simp [slots_cons, Slot.move, ih (Nat.succ.inj hlen) (Nat.succ.inj hstarts)]

theorem map_cached_slots (hlen : lines.length = texts.length)
    (hstarts : starts.length = texts.length) :
    (slots texts starts lines).map Slot.cached = lines := by
  have hmove := congrArg (List.map Prod.fst) (map_move_slots hlen hstarts)
  rw [List.map_map, List.map_fst_zip (by omega)] at hmove
  exact hmove

def places (d : Document) (texts : List String) : List (String × Offset) :=
  texts.zip (startsFrom 0 texts d.endings)

/-- The lines from `index` on can be moved to where they start now. -/
def CanMoveFrom (d : Document) (texts : List String) (index : Nat) : Prop :=
  ∀ p ∈ (d.lines.zip (startsFrom 0 texts d.endings)).drop index, p.1.CanMove p.2

instance (d : Document) (texts : List String) (index : Nat) :
    Decidable (d.CanMoveFrom texts index) :=
  inferInstanceAs (Decidable (∀ p ∈ _, _))

/-- The document with the lines `anew` from `index` on, and with those after them moved to where they
start now. -/
def renew (d : Document) (texts : List String) (index : Nat) (anew : List Line) : Document :=
  { d with
    lines := d.lines.take index ++ (anew ++
      ((d.lines.zip (startsFrom 0 texts d.endings)).drop (index + anew.length)).map fun p =>
        p.1.moved p.2) }

variable {d : Document} {index : Nat}

def reanalyzeFrom (t : Tokenizer σ) (d : Document) (texts : List String) (index : Nat) (s : σ) :
    Except Fault (List Line × List Slot × σ) :=
  let (kind, context) := d.continuationBefore index
  reanalyze t ((slots texts (startsFrom 0 texts d.endings) d.lines).drop index) kind
    (t.setContext context s)

theorem update_eq_reanalyzeFrom (hlen : d.lines.length = texts.length)
    (hindex : index < texts.length) (hfit : extent texts d.endings < UInt64.size) (s : σ) :
    d.update t texts index s = do
      let (anew, settled, s) ← d.reanalyzeFrom t texts index s
      let moved ← settled.mapM fun slot => slot.cached.rebase slot.start
      return ({ d with lines := d.lines.take index ++ (anew ++ moved) }, s) := by
  have hstarts : lineStarts 0 texts d.endings = .ok (startsFrom 0 texts d.endings) :=
    lineStarts_eq_ok_iff.2 ⟨by simpa using hfit, rfl⟩
  rw [update, if_neg (Nat.not_le.2 hindex), if_neg (not_not.2 hlen), hstarts]
  simp only [bind, Except.bind, settle_eq_reanalyze, reanalyzeFrom]
  cases reanalyze t ((slots texts (startsFrom 0 texts d.endings) d.lines).drop index)
      (d.continuationBefore index).1 (t.setContext (d.continuationBefore index).2 s) with
  | error fault => rfl
  | ok result =>
    obtain ⟨anew, settled, s'⟩ := result
    simp only [pure, Except.pure]
    cases settled.mapM fun slot => slot.cached.rebase slot.start <;> rfl

/-- What comes of the analysis decides what comes of the update, but for the room to move the rest. -/
theorem update_eq_of_reanalyzeFrom (hlen : d.lines.length = texts.length)
    (hindex : index < texts.length) (hfit : extent texts d.endings < UInt64.size) {s s' : σ}
    {anew : List Line} {settled : List Slot}
    (hrun : d.reanalyzeFrom t texts index s = .ok (anew, settled, s')) :
    Reanalyzed t ((d.places texts).drop index) (d.lines.drop index) (d.continuationBefore index).1
        (t.setContext (d.continuationBefore index).2 s) anew s' ∧
      d.update t texts index s =
        if d.CanMoveFrom texts (index + anew.length) then .ok (d.renew texts index anew, s')
        else .error .offsetOverflow := by
  obtain ⟨hspec, rfl⟩ := reanalyzed hrun
  have hstarts := length_startsFrom 0 texts d.endings
  constructor
  · rwa [List.map_drop, List.map_drop, map_place_slots hlen, map_cached_slots hlen hstarts] at hspec
  · have hmoves : ((slots texts (startsFrom 0 texts d.endings) d.lines).drop index |>.drop
        anew.length).map Slot.move =
          (d.lines.zip (startsFrom 0 texts d.endings)).drop (index + anew.length) := by
      rw [List.map_drop, List.map_drop, map_move_slots hlen hstarts, List.drop_drop]
    rw [update_eq_reanalyzeFrom hlen hindex hfit, hrun]
    simp only [bind, Except.bind]
    rw [mapM_eq_ite fun slot : Slot => slot.cached.rebase_eq_ite slot.start, renew, ← hmoves,
      List.map_map]
    have hroom : d.CanMoveFrom texts (index + anew.length) ↔
        ∀ slot ∈ ((slots texts (startsFrom 0 texts d.endings) d.lines).drop index).drop anew.length,
          slot.cached.CanMove slot.start := by
      rw [CanMoveFrom, ← hmoves, List.forall_mem_map]
      rfl
    by_cases hall : d.CanMoveFrom texts (index + anew.length)
    · rw [if_pos (hroom.1 hall), if_pos hall]
      rfl
    · rw [if_neg (mt hroom.2 hall), if_neg hall]

/-- An update that has a result has made its analyses, and there was room to move the rest. -/
theorem exists_reanalyzeFrom_of_update (hlen : d.lines.length = texts.length)
    (hindex : index < texts.length) {d' : Document} {s s' : σ}
    (hrun : d.update t texts index s = .ok (d', s')) :
    extent texts d.endings < UInt64.size ∧ ∃ anew settled,
      d.reanalyzeFrom t texts index s = .ok (anew, settled, s') ∧
        d.CanMoveFrom texts (index + anew.length) ∧ d' = d.renew texts index anew := by
  have hstep := hrun
  rw [update, if_neg (Nat.not_le.2 hindex), if_neg (not_not.2 hlen)] at hstep
  obtain ⟨starts, hstarts, -⟩ := bind_eq_ok_iff.1 hstep
  have hfit : extent texts d.endings < UInt64.size := by
    simpa using (lineStarts_eq_ok_iff.1 hstarts).1
  refine ⟨hfit, ?_⟩
  cases hanalysis : d.reanalyzeFrom t texts index s with
  | error fault =>
    rw [update_eq_reanalyzeFrom hlen hindex hfit, hanalysis] at hrun
    cases hrun
  | ok result =>
    obtain ⟨anew, settled, s₁⟩ := result
    rw [(update_eq_of_reanalyzeFrom hlen hindex hfit hanalysis).2] at hrun
    split at hrun
    next hroom =>
      obtain ⟨rfl, rfl⟩ := Prod.mk.inj (Except.ok.inj hrun)
      exact ⟨anew, settled, rfl, hroom, rfl⟩
    next => cases hrun

/-! ## The renewed document, line by line -/

variable {anew : List Line}

theorem take_lines_renew (hindex : index ≤ d.lines.length) :
    (d.renew texts index anew).lines.take index = d.lines.take index := by
  have hlen : (d.lines.take index).length = index := List.length_take_of_le hindex
  rw [renew, List.take_append_of_le_length (Nat.le_of_eq hlen.symm), List.take_of_length_le
    (Nat.le_of_eq hlen)]

theorem drop_lines_renew (hindex : index ≤ d.lines.length) :
    (d.renew texts index anew).lines.drop index = anew ++
      ((d.lines.zip (startsFrom 0 texts d.endings)).drop (index + anew.length)).map fun p =>
        p.1.moved p.2 := by
  have hlen : (d.lines.take index).length = index := List.length_take_of_le hindex
  exact List.drop_left' hlen

theorem getElem?_lines_renew (hindex : index ≤ d.lines.length) {j : Nat}
    (hj : index + anew.length ≤ j) :
    (d.renew texts index anew).lines[j]? =
      (d.lines.zip (startsFrom 0 texts d.endings))[j]?.map fun p => p.1.moved p.2 := by
  obtain ⟨k, rfl⟩ := Nat.exists_eq_add_of_le hj
  rw [Nat.add_assoc, ← List.getElem?_drop, drop_lines_renew hindex,
    List.getElem?_append_right (Nat.le_add_right _ _), Nat.add_sub_cancel_left, List.getElem?_map,
    List.getElem?_drop, Nat.add_assoc]

end Document
end Linewise
