import Linewise.Document

/-! A cached line taken apart into its shape and its start. Lines of one shape differ only by a shift
modulo `2 ^ 64`: to compare shapes is to ask whether one line becomes the other when it is moved there,
though a line that is moved in a document has to have room where it goes. -/
namespace Linewise

@[simp] theorem Span.shift_relativeTo (s : Span) (o : Offset) : (s.relativeTo o).shift o = s := by
  simp [Span.relativeTo, Span.shift]

@[simp] theorem Span.relativeTo_shift (s : Span) (o : Offset) : (s.shift o).relativeTo o = s := by
  simp [Span.relativeTo, Span.shift]

theorem Offset.advance_toNat (o x : Offset) :
    o.advance x.toNat =
      if o.toNat + x.toNat < UInt64.size then .ok (x + o) else .error .offsetOverflow := by
  have hadd : UInt64.ofNat (o.toNat + x.toNat) = x + o := by
    rw [UInt64.ofNat_add, UInt64.ofNat_toNat, UInt64.ofNat_toNat, UInt64.add_comm]
  rw [Offset.advance, Offset.check, hadd]

theorem Span.place_eq_ite (s : Span) (o : Offset) :
    Span.place o s.start.toNat s.stop.toNat =
      if o.toNat + s.start.toNat < UInt64.size ∧ o.toNat + s.stop.toNat < UInt64.size then
        .ok (s.shift o)
      else .error .offsetOverflow := by
  rw [place, Offset.advance_toNat, Offset.advance_toNat]
  by_cases hstart : o.toNat + s.start.toNat < UInt64.size
  · by_cases hstop : o.toNat + s.stop.toNat < UInt64.size
    · simp only [hstart, hstop, and_self, if_true]
      rfl
    · simp only [hstart, hstop, and_false, if_true, if_false]
      rfl
  · simp only [hstart, false_and, if_false]
    rfl

theorem Span.place_eq_shift {s : Span} {o : Offset}
    (hstart : o.toNat + s.start.toNat < UInt64.size)
    (hstop : o.toNat + s.stop.toNat < UInt64.size) :
    Span.place o s.start.toNat s.stop.toNat = .ok (s.shift o) := by
  rw [place_eq_ite, if_pos ⟨hstart, hstop⟩]

theorem Span.ordered_shift {s : Span} {o : Offset} (h : s.Ordered)
    (hfit : o.toNat + s.stop.toNat < UInt64.size) : (s.shift o).Ordered := by
  have hle : s.start.toNat ≤ s.stop.toNat := UInt64.le_iff_toNat_le.1 h
  have hstop : (s.stop + o).toNat = s.stop.toNat + o.toNat := by
    rw [UInt64.toNat_add]
    exact Nat.mod_eq_of_lt (show s.stop.toNat + o.toNat < UInt64.size by omega)
  have hstart : (s.start + o).toNat = s.start.toNat + o.toNat := by
    rw [UInt64.toNat_add]
    exact Nat.mod_eq_of_lt (show s.start.toNat + o.toNat < UInt64.size by omega)
  refine UInt64.le_iff_toNat_le.2 ?_
  rw [shift, hstart, hstop]
  omega

def Token.shift (t : Token) (distance : Offset) : Token := { t with span := t.span.shift distance }

@[simp] theorem Token.kind_shift (t : Token) (o : Offset) : (t.shift o).kind = t.kind := rfl

@[simp] theorem Token.shift_relativeTo (t : Token) (o : Offset) : (t.relativeTo o).shift o = t := by
  simp [Token.relativeTo, Token.shift]

@[simp] theorem Token.relativeTo_shift (t : Token) (o : Offset) : (t.shift o).relativeTo o = t := by
  simp [Token.relativeTo, Token.shift]

/-- Both ends of the token stay offsets when the line starts at `start`. -/
def Token.Reaches (t : Token) (start : Offset) : Prop :=
  start.toNat + t.span.start.toNat < UInt64.size ∧ start.toNat + t.span.stop.toNat < UInt64.size

instance (t : Token) (start : Offset) : Decidable (t.Reaches start) :=
  inferInstanceAs (Decidable (_ ∧ _))

theorem Token.place_eq_ite (t : Token) (o : Offset) :
    t.place o = if t.Reaches o then .ok (t.shift o) else .error .offsetOverflow := by
  rw [place, Span.place_eq_ite]
  by_cases h : t.Reaches o
  · rw [if_pos h, if_pos (show _ ∧ _ from h)]
    rfl
  · rw [if_neg h, if_neg (show ¬ (_ ∧ _) from h)]
    rfl

/-- What is known of a line apart from its place. The tokens count from the start of the line. -/
structure Shape where
  tokens : List Token
  continuation : Kind
  context : Option Context
  deriving DecidableEq, Repr

namespace Shape

def lineAt (x : Shape) (start : Offset) : Line :=
  ⟨x.tokens.map fun t => t.shift start, x.continuation, x.context, start⟩

/-- The tokens are ordered and end within the first `size` bytes. -/
def Fits (x : Shape) (size : Nat) : Prop :=
  ∀ t ∈ x.tokens, t.span.Ordered ∧ t.span.stop.toNat ≤ size

def Reaches (x : Shape) (start : Offset) : Prop := ∀ t ∈ x.tokens, t.Reaches start

instance (x : Shape) (start : Offset) : Decidable (x.Reaches start) :=
  inferInstanceAs (Decidable (∀ t ∈ x.tokens, t.Reaches start))

theorem Fits.reaches {x : Shape} {size : Nat} (h : x.Fits size) {start : Offset}
    (hsize : start.toNat + size < UInt64.size) : x.Reaches start := by
  intro t ht
  obtain ⟨hord, hstop⟩ := h t ht
  have hle : t.span.start.toNat ≤ t.span.stop.toNat := UInt64.le_iff_toNat_le.1 hord
  exact ⟨by omega, by omega⟩

end Shape

namespace Line

def shape (l : Line) : Shape := ⟨l.relativeTokens, l.continuation, l.context⟩

@[simp] theorem continuation_shape (l : Line) : l.shape.continuation = l.continuation := rfl

@[simp] theorem context_shape (l : Line) : l.shape.context = l.context := rfl

@[simp] theorem start_lineAt (x : Shape) (start : Offset) : (x.lineAt start).start = start := rfl

@[simp] theorem shape_lineAt (x : Shape) (start : Offset) : (x.lineAt start).shape = x := by
  simp [shape, Shape.lineAt, relativeTokens, Function.comp_def]

@[simp] theorem lineAt_shape (l : Line) : l.shape.lineAt l.start = l := by
  simp [shape, Shape.lineAt, relativeTokens, Function.comp_def]

/-- A line is its shape together with its start. -/
theorem eq_iff_shape_start {a b : Line} : a = b ↔ a.shape = b.shape ∧ a.start = b.start := by
  constructor
  · rintro rfl
    exact ⟨rfl, rfl⟩
  · rintro ⟨hshape, hstart⟩
    rw [← lineAt_shape a, hshape, hstart, lineAt_shape]

theorem sameShape_iff_shape {a b : Line} : a.sameShape b = true ↔ a.shape = b.shape := by
  simp only [sameShape_iff, shape, Shape.mk.injEq]
  constructor
  · rintro ⟨hkind, hcontext, htokens⟩
    exact ⟨htokens, hkind, hcontext⟩
  · rintro ⟨htokens, hkind, hcontext⟩
    exact ⟨hkind, hcontext, htokens⟩

/-- The line is at `start`, or it has room to be moved there. -/
def CanMove (l : Line) (start : Offset) : Prop := start = l.start ∨ l.shape.Reaches start

instance (l : Line) (start : Offset) : Decidable (l.CanMove start) :=
  inferInstanceAs (Decidable (_ ∨ _))

/-- The line at `start`, with the ends of its tokens as far from there as they were from its own start,
modulo `2 ^ 64`. -/
def moved (l : Line) (start : Offset) : Line :=
  { l with tokens := l.tokens.map fun t => t.shift (start - l.start), start }

theorem lineAt_shape_eq_moved (l : Line) (start : Offset) : l.shape.lineAt start = l.moved start := by
  have hshift (t : Token) : (t.relativeTo l.start).shift start = t.shift (start - l.start) := by
    have hadd (x : Offset) : x - l.start + start = x + (start - l.start) := by grind
    simp only [Token.relativeTo, Token.shift, Span.relativeTo, Span.shift, hadd]
  simp only [shape, Shape.lineAt, relativeTokens, moved, List.map_map, Function.comp_def, hshift]

@[simp] theorem shape_moved (l : Line) (start : Offset) : (l.moved start).shape = l.shape := by
  rw [← lineAt_shape_eq_moved, shape_lineAt]

theorem rebase_eq_ite (l : Line) (start : Offset) :
    l.rebase start = if l.CanMove start then .ok (l.moved start) else .error .offsetOverflow := by
  rw [← lineAt_shape_eq_moved, rebase]
  by_cases hstart : start = l.start
  · rw [if_pos hstart, if_pos (.inl hstart), hstart, lineAt_shape]
  · rw [if_neg hstart, mapM_eq_ite fun t => Token.place_eq_ite t start]
    by_cases hreach : ∀ t ∈ l.relativeTokens, t.Reaches start
    · rw [if_pos hreach, if_pos (.inr hreach)]
      rfl
    · rw [if_neg hreach, if_neg fun h => h.elim hstart hreach]
      rfl

theorem rebase_eq_lineAt {l : Line} {start : Offset} (h : l.shape.Reaches start) :
    l.rebase start = .ok (l.shape.lineAt start) := by
  rw [rebase_eq_ite, if_pos (.inr h), lineAt_shape_eq_moved]

/-- Lines agree as soon as their shapes and their starts do. -/
theorem lines_eq_of_shapes_starts {ls ms : List Line} (hshape : ls.map shape = ms.map shape)
    (hstart : ls.map Line.start = ms.map Line.start) : ls = ms := by
  induction ls generalizing ms with
  | nil => simpa using hshape.symm
  | cons l ls ih =>
    cases ms with
    | nil => simp at hshape
    | cons m ms =>
      simp only [List.map_cons, List.cons.injEq] at hshape hstart
      rw [eq_iff_shape_start.2 ⟨hshape.1, hstart.1⟩, ih hshape.2 hstart.2]

/-- A shape has one line at each start, and that is any line of the shape moved there. -/
theorem eq_moved_iff {l m : Line} {start : Offset} :
    m = l.moved start ↔ m.start = start ∧ l.sameShape m = true := by
  rw [eq_iff_shape_start, sameShape_iff_shape, shape_moved, and_comm, eq_comm (a := l.shape)]
  rfl

theorem sameShape_equivalence : Equivalence fun l m : Line => l.sameShape m = true where
  refl := sameShape_refl
  symm h := sameShape_iff_shape.2 (sameShape_iff_shape.1 h).symm
  trans h h' := sameShape_iff_shape.2 ((sameShape_iff_shape.1 h).trans (sameShape_iff_shape.1 h'))

theorem rebase_eq_ok_iff {l m : Line} {start : Offset} :
    l.rebase start = .ok m ↔ l.CanMove start ∧ m.start = start ∧ l.sameShape m = true := by
  rw [rebase_eq_ite, ← eq_moved_iff]
  split
  next hroom => simp [hroom, eq_comm]
  next hroom => simp [hroom]

/-- Room depends on the shape alone, save that a line can always stay where it is. -/
theorem CanMove.of_rebase {l m : Line} {start next : Offset} (h : l.rebase start = .ok m)
    (hnext : m.CanMove next) : l.CanMove next := by
  obtain ⟨hroom, hstart, hshape⟩ := rebase_eq_ok_iff.1 h
  rcases hnext with hstay | hreaches
  · rwa [hstay, hstart]
  · rw [← sameShape_iff_shape.1 hshape] at hreaches
    exact .inr hreaches

theorem rebase_rebase {l m n : Line} {start next : Offset} (h : l.rebase start = .ok m)
    (h' : m.rebase next = .ok n) : l.rebase next = .ok n := by
  obtain ⟨hroom, hstart, hshape⟩ := rebase_eq_ok_iff.1 h'
  have hfirst : l.sameShape m = true := (rebase_eq_ok_iff.1 h).2.2
  exact rebase_eq_ok_iff.2 ⟨.of_rebase h hroom, hstart, sameShape_equivalence.trans hfirst hshape⟩

/-- Two lines have the same shape exactly if the one, moved to where the other starts, is the other. So
the shape and the start make the line, and a line that is moved becomes the one line of its shape at the
new start. It makes no difference whether it gets there at once or by way of another start. -/
theorem sameShape_up_to_start (l m : Line) :
    (l.sameShape m = true ↔ l.moved m.start = m) ∧
      Equivalence (fun l m : Line => l.sameShape m = true) ∧
      (l.sameShape m = true → l.start = m.start → l = m) ∧
      (∀ start, (∃ l', l.rebase start = .ok l') ↔ l.CanMove start) ∧
      (∀ start l', l.rebase start = .ok l' →
        ∀ n, n = l' ↔ n.start = start ∧ l.sameShape n = true) ∧
      ∀ start next l' n, l.rebase start = .ok l' → l'.rebase next = .ok n →
        l.rebase next = .ok n := by
  refine ⟨?_, sameShape_equivalence, ?_, ?_, ?_, fun _ _ _ _ => rebase_rebase⟩
  · rw [eq_comm (a := l.moved m.start), eq_moved_iff]
    exact (and_iff_right rfl).symm
  · intro hshape hstart
    exact eq_iff_shape_start.2 ⟨sameShape_iff_shape.1 hshape, hstart⟩
  · intro start
    constructor
    · rintro ⟨l', h⟩
      exact (rebase_eq_ok_iff.1 h).1
    · intro hroom
      exact ⟨_, rebase_eq_ok_iff.2 ⟨hroom, eq_moved_iff.1 rfl⟩⟩
  · intro start l' h n
    obtain ⟨-, hmoved⟩ := rebase_eq_ok_iff.1 h
    rw [eq_moved_iff.2 hmoved, eq_moved_iff]

/-- The token begins a byte before its line. At the start of the text it begins with the last offset, and
from there the line cannot be moved on. -/
theorem sameShape_up_to_start_wrapped :
    let l : Line := ⟨[⟨.text, ⟨1, 3⟩, some 2⟩], .text, some (.nesting 1), 2⟩
    let m : Line := ⟨[⟨.text, ⟨0 - 1, 1⟩, some 2⟩], .text, some (.nesting 1), 0⟩
    l.sameShape m = true ∧ l.moved 0 = m ∧ l.rebase 0 = .ok m ∧ m.rebase 0 = .ok m ∧
      (∀ n, n = m ↔ n.start = 0 ∧ l.sameShape n = true) ∧ (∃ l', l.rebase 2 = .ok l') ∧
      ¬ ∃ m', m.rebase 2 = .ok m' := by
  intro l m
  obtain ⟨hshape, -, -, hroom, hone, htwice⟩ := sameShape_up_to_start l m
  have hback := (sameShape_up_to_start m l).2.2.2.1 2
  have hmove : l.rebase 0 = .ok m := rebase_eq_ok_iff.2 ⟨by decide, rfl, by decide⟩
  have hstay : m.rebase 0 = .ok m := rebase_self m
  refine ⟨by decide, hshape.1 (by decide), htwice 0 0 m m hmove hstay, hstay, hone 0 m hmove, ?_, ?_⟩
  · exact (hroom 2).2 (by decide)
  · exact fun h => absurd (hback.1 h) (by decide)

end Line
end Linewise
