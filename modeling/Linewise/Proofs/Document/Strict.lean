import Linewise.Proofs.Document.Reanalysis
import Linewise.Proofs.Text.Views

/-! Documents made and updated by position. A run stops where it would read or write past the end of a list,
and where it finds no width for a text. As long as there is a width for each line neither comes up, and the
documents are those of `Document.update`, which has something to go on with in either case. -/
namespace Linewise.Document.Strict

inductive Stop where
  | pastEnd (position : Nat)
  | noWidth (position : Nat)
  | fault (fault : Fault)
  deriving DecidableEq, Repr

variable {α β σ : Type}

def lift (x : Except Fault α) : Except Stop α := x.mapError .fault

@[simp] theorem lift_ok (a : α) : lift (.ok a) = .ok a := rfl

@[simp] theorem lift_error (f : Fault) : lift (.error f : Except Fault α) = .error (.fault f) := rfl

def read (xs : List α) (position : Nat) : Except Stop α :=
  match xs[position]? with
  | some x => .ok x
  | none => .error (.pastEnd position)

def write (xs : List α) (position : Nat) (x : α) : Except Stop (List α) :=
  if position < xs.length then .ok (xs.set position x) else .error (.pastEnd position)

/-- The elements from `position` on, none if that is the end of the list. -/
def readFrom (xs : List α) (position : Nat) : Except Stop (List α) :=
  if position ≤ xs.length then .ok (xs.drop position) else .error (.pastEnd position)

def readWidth (endings : List Nat) (position : Nat) : Except Stop Nat :=
  match endings[position]? with
  | some width => .ok width
  | none => .error (.noWidth position)

/-- Where each of the texts starts, the first at `offset`. Its width is the one at `position`. -/
def starts (endings : List Nat) (position : Nat) (offset : Offset) :
    List String → Except Stop (List Offset)
  | [] => .ok []
  | text :: texts => do
    let width ← readWidth endings position
    let next ← lift (offset.advance (Text.size text.toList + width))
    return offset :: (← starts endings (position + 1) next texts)

def continuationBefore (lines : List Line) : Nat → Except Stop (Kind × Option Context)
  | 0 => .ok (.null, none)
  | previous + 1 => do
    let line ← read lines previous
    return (line.continuation, line.context)

variable (t : Tokenizer σ)

def build (texts : List String) (endings : List Nat) (s : σ) : Except Stop (Document × σ) := do
  let offsets ← starts endings 0 0 texts
  let (lines, s) ← lift (t.lines (texts.zip offsets) .null (t.setContext none s))
  return (⟨lines, endings⟩, s)

def ofText (text : String) (s : σ) : Except Stop (Document × σ) :=
  let segments := Segment.lines text
  build t (segments.map Segment.text) (Segment.gaps (Text.size text.toList) segments) s

def ofLines (texts : List String) (s : σ) : Except Stop (Document × σ) :=
  build t texts (texts.map fun _ => 1) s

/-- The lines from `position` on analyzed anew, each put in the place of the cached one, up to the first
that keeps its shape. The result has the position after it. -/
def reanalyze (texts : List String) (offsets : List Offset) (position : Nat) (lines : List Line)
    (kind : Kind) (s : σ) : Except Stop (List Line × Nat × σ) :=
  if position < texts.length then do
    let (line, s) ← lift (t.line (← read texts position) (← read offsets position) kind s)
    let cached ← read lines position
    let lines ← write lines position line
    if cached.sameShape line then return (lines, position + 1, s)
    else reanalyze texts offsets (position + 1) lines line.continuation s
  else return (lines, position, s)
termination_by texts.length - position

def move (offsets : List Offset) (position : Nat) (lines : List Line) : Except Stop (List Line) := do
  let settled := (← readFrom lines position).zip (← readFrom offsets position)
  let moved ← lift (settled.mapM fun (line, start) => line.rebase start)
  return lines.take position ++ moved

def update (d : Document) (texts : List String) (index : Nat) (s : σ) :
    Except Stop (Document × σ) :=
  if texts.length ≤ index then .ok (d, s)
  else if d.lines.length ≠ texts.length then ofLines t texts s
  else do
    let offsets ← starts d.endings 0 0 texts
    let (kind, context) ← continuationBefore d.lines index
    let (lines, position, s) ←
      reanalyze t texts offsets index d.lines kind (t.setContext context s)
    return ({ d with lines := ← move offsets position lines }, s)

theorem readFrom_of_le {xs : List α} {position : Nat} (h : position ≤ xs.length) :
    readFrom xs position = .ok (xs.drop position) := if_pos h

theorem readWidth_of_lt {endings : List Nat} {position : Nat} (h : position < endings.length) :
    readWidth endings position = .ok endings[position] := by
  rw [readWidth, List.getElem?_eq_getElem h]

theorem starts_eq_lineStarts {endings : List Nat} {position : Nat} {texts : List String}
    (h : position + texts.length ≤ endings.length) (offset : Offset) :
    starts endings position offset texts =
      lift (lineStarts offset texts (endings.drop position)) := by
  induction texts generalizing position offset with
  | nil => rfl
  | cons text texts ih =>
    rw [List.length_cons] at h
    have hposition : position < endings.length := by omega
    rw [starts, lineStarts, readWidth_of_lt hposition, List.drop_eq_getElem_cons hposition]
    simp only [List.headD_cons, List.tail_cons, bind, Except.bind]
    cases offset.advance (Text.size text.toList + endings[position]) with
    | error fault => rfl
    | ok next =>
      simp only [lift_ok, ih (show position + 1 + texts.length ≤ endings.length by omega) next]
      cases lineStarts next texts (endings.drop (position + 1)) <;> rfl

/-- With a width for each text none is missed. -/
theorem build_eq {texts : List String} {endings : List Nat} (h : endings.length = texts.length)
    (s : σ) : build t texts endings s = lift (Document.build t texts endings s) := by
  rw [build, Document.build, starts_eq_lineStarts (by omega), List.drop_zero]
  cases lineStarts 0 texts endings with
  | error fault => rfl
  | ok offsets =>
    simp only [lift_ok, bind, Except.bind]
    cases t.lines (texts.zip offsets) .null (t.setContext none s) <;> rfl

theorem ofText_eq (text : String) (s : σ) : ofText t text s = lift (Document.ofText t text s) := by
  apply build_eq
  rw [Segment.gaps_lines, Segment.map_text_lines, List.length_map, List.length_map]

theorem ofLines_eq (texts : List String) (s : σ) :
    ofLines t texts s = lift (Document.ofLines t texts s) :=
  build_eq t (List.length_map _) s

theorem continuationBefore_eq {d : Document} {index : Nat} (h : index ≤ d.lines.length) :
    continuationBefore d.lines index = .ok (d.continuationBefore index) := by
  cases index with
  | zero => rfl
  | succ previous =>
    rw [continuationBefore, read, Document.continuationBefore, List.getElem?_eq_getElem h]
    rfl

theorem read_append (before rest : List α) (x : α) :
    read (before ++ x :: rest) before.length = .ok x := by
  simp [read]

theorem write_append (before rest : List α) (x y : α) :
    write (before ++ x :: rest) before.length y = .ok (before ++ y :: rest) := by
  simp [write]

/-- Nothing is read before `position`, and what is put there is what comes of the slots from there on. -/
theorem reanalyze_append {before texts : List String} {passed offsets : List Offset}
    {done lines : List Line} (hpassed : passed.length = before.length)
    (hdone : done.length = before.length) (hoffsets : offsets.length = texts.length)
    (hlines : lines.length = texts.length) (kind : Kind) (s : σ) :
    reanalyze t (before ++ texts) (passed ++ offsets) before.length (done ++ lines) kind s = do
      let (anew, _, s) ← lift (Document.reanalyze t (slots texts offsets lines) kind s)
      return (done ++ (anew ++ lines.drop anew.length), before.length + anew.length, s) := by
  induction texts generalizing before passed offsets done lines kind s with
  | nil =>
    obtain rfl := List.length_eq_zero_iff.1 hlines
    rw [reanalyze, if_neg (by simp)]
    rfl
  | cons text texts ih =>
    obtain ⟨offset, offsets, rfl⟩ := List.exists_cons_of_length_eq_add_one hoffsets
    obtain ⟨cached, lines, rfl⟩ := List.exists_cons_of_length_eq_add_one hlines
    have hlt : before.length < (before ++ text :: texts).length := by simp
    have hoffset : read (passed ++ offset :: offsets) before.length = .ok offset :=
      hpassed ▸ read_append passed offsets offset
    have hcached : read (done ++ cached :: lines) before.length = .ok cached :=
      hdone ▸ read_append done lines cached
    have hwrite (line : Line) :
        write (done ++ cached :: lines) before.length line = .ok (done ++ line :: lines) :=
      hdone ▸ write_append done lines cached line
    rw [reanalyze, if_pos hlt, slots_cons, Document.reanalyze]
    simp only [read_append, hoffset, hcached, hwrite, bind, Except.bind]
    cases t.line text offset kind s with
    | error fault => rfl
    | ok result =>
      obtain ⟨line, s₁⟩ := result
      simp only [lift_ok]
      split
      next => rfl
      next =>
        have hpassed' : (passed ++ [offset]).length = (before ++ [text]).length := by
          simpa using hpassed
        have hdone' : (done ++ [line]).length = (before ++ [text]).length := by simpa using hdone
        have hnext := ih hpassed' hdone' (Nat.succ.inj hoffsets) (Nat.succ.inj hlines)
          line.continuation s₁
        simp only [List.append_assoc, List.singleton_append, List.length_append,
          List.length_singleton] at hnext
        rw [hnext]
        cases Document.reanalyze t (slots texts offsets lines) line.continuation s₁ with
        | error fault => rfl
        | ok result =>
          obtain ⟨anew, settled, s₂⟩ := result
          simp [bind, Except.bind, pure, Except.pure, Nat.add_assoc, Nat.add_comm 1]

/-- The lines before `index` are passed over, and those from there on are the slots. -/
theorem reanalyze_eq {texts : List String} {offsets : List Offset} {lines : List Line} {index : Nat}
    (hindex : index ≤ texts.length) (hoffsets : offsets.length = texts.length)
    (hlines : lines.length = texts.length) (kind : Kind) (s : σ) :
    reanalyze t texts offsets index lines kind s = do
      let (anew, _, s) ← lift (Document.reanalyze t ((slots texts offsets lines).drop index) kind s)
      return (lines.take index ++ (anew ++ lines.drop (index + anew.length)), index + anew.length,
        s) := by
  have hbefore : (texts.take index).length = index := List.length_take_of_le hindex
  have hpassed : (offsets.take index).length = (texts.take index).length := by simp [hoffsets]
  have hdone : (lines.take index).length = (texts.take index).length := by simp [hlines]
  have hoffsets' : (offsets.drop index).length = (texts.drop index).length := by simp [hoffsets]
  have hlines' : (lines.drop index).length = (texts.drop index).length := by simp [hlines]
  have happend := reanalyze_append t hpassed hdone hoffsets' hlines' kind s
  simp only [List.take_append_drop, hbefore, List.drop_drop] at happend
  rw [happend, drop_slots]

/-- The lines before `position` stay where they are, and those from there on are those of the slots. -/
theorem move_append {texts : List String} {offsets : List Offset} {lines done : List Line}
    {position : Nat} (hoffsets : offsets.length = texts.length) (hlines : lines.length = texts.length)
    (hposition : position ≤ texts.length) (hdone : done.length = position) :
    move offsets position (done ++ lines.drop position) = do
      let moved ← lift (((slots texts offsets lines).drop position).mapM fun slot =>
        slot.cached.rebase slot.start)
      return done ++ moved := by
  have hmoves : ((slots texts offsets lines).drop position).map Slot.move =
      (lines.drop position).zip (offsets.drop position) := by
    rw [drop_slots]
    exact map_move_slots (by simp [hlines]) (by simp [hoffsets])
  rw [move, readFrom_of_le (by simp [hdone]), readFrom_of_le (hoffsets ▸ hposition),
    List.drop_left' hdone, List.take_left' hdone]
  simp only [bind, Except.bind, ← hmoves, List.mapM_map]
  rfl

theorem update_eq_of_length_eq {d : Document} (h : d.endings.length = d.lines.length)
    {texts : List String} (hlines : d.lines.length = texts.length) {index : Nat}
    (hindex : index < texts.length) (s : σ) :
    update t d texts index s = lift (d.update t texts index s) := by
  rw [update, if_neg (Nat.not_le.2 hindex), if_neg (not_not.2 hlines), Document.update,
    if_neg (Nat.not_le.2 hindex), if_neg (not_not.2 hlines), starts_eq_lineStarts (by omega),
    List.drop_zero]
  cases hstarts : lineStarts 0 texts d.endings with
  | error fault => rfl
  | ok offsets =>
    have hoffsets : offsets.length = texts.length := by
      rw [(lineStarts_eq_ok_iff.1 hstarts).2, length_startsFrom]
    have hle : index ≤ texts.length := Nat.le_of_lt hindex
    simp only [lift_ok, bind, Except.bind, settle_eq_reanalyze,
      continuationBefore_eq (hlines ▸ hle), reanalyze_eq t hle hoffsets hlines]
    cases hrun : Document.reanalyze t ((slots texts offsets d.lines).drop index)
        (d.continuationBefore index).1 (t.setContext (d.continuationBefore index).2 s) with
    | error fault => rfl
    | ok result =>
      obtain ⟨anew, settled, s'⟩ := result
      obtain ⟨hspec, rfl⟩ := reanalyzed hrun
      have hanew : index + anew.length ≤ texts.length := by
        have hspan := hspec.length_le
        simp only [List.map_drop, map_place_slots hlines, List.length_drop, List.length_zip] at hspan
        omega
      have hdone : (d.lines.take index ++ anew).length = index + anew.length := by
        rw [List.length_append, List.length_take_of_le (by omega)]
      simp only [lift_ok, pure, Except.pure, ← List.append_assoc, List.drop_drop,
        move_append hoffsets hlines hanew hdone, bind, Except.bind]
      cases ((slots texts offsets d.lines).drop (index + anew.length)).mapM
        fun slot => slot.cached.rebase slot.start <;> simp

/-- With a width for each line of the document an update stops at faults only, and at the same ones. -/
theorem update_eq {d : Document} (h : d.endings.length = d.lines.length) (texts : List String)
    (index : Nat) (s : σ) : update t d texts index s = lift (d.update t texts index s) := by
  by_cases hindex : texts.length ≤ index
  · rw [update, if_pos hindex, Document.update, if_pos hindex, lift_ok]
  · by_cases hlines : d.lines.length = texts.length
    · exact update_eq_of_length_eq t h hlines (Nat.lt_of_not_le hindex) s
    · rw [update, if_neg hindex, if_pos hlines, Document.update, if_neg hindex, if_pos hlines]
      exact ofLines_eq t texts s

/-- One line without a width. -/
example (t : Tokenizer σ) (line : Line) (text : String) (s : σ) :
    update t ⟨[line], []⟩ [text] 0 s = .error (.noWidth 0) := rfl

end Linewise.Document.Strict
