import Linewise.Fault

/-! Byte offsets of a document and the half-open spans between them. An offset moves forward by a
checked step; the distance between two offsets is taken modulo `2 ^ 64`. -/
namespace Linewise

abbrev Offset := UInt64

namespace Offset

def check (n : Nat) : Except Fault Offset :=
  if n < UInt64.size then .ok (.ofNat n) else .error .offsetOverflow

def advance (o : Offset) (n : Nat) : Except Fault Offset :=
  check (o.toNat + n)

theorem check_eq_ok_iff {n : Nat} {o : Offset} :
    check n = .ok o ↔ n < UInt64.size ∧ o.toNat = n := by
  unfold check
  split
  next h =>
    simp only [Except.ok.injEq, h, true_and]
    constructor
    · rintro rfl
      exact UInt64.toNat_ofNat_of_lt h
    · rintro rfl
      exact UInt64.ofNat_toNat
  next h => simp [h]

theorem check_eq_error_iff {n : Nat} {f : Fault} :
    check n = .error f ↔ UInt64.size ≤ n ∧ f = .offsetOverflow := by
  unfold check
  split
  next h => simp [Nat.not_le_of_lt h]
  next h => simp [Nat.le_of_not_lt h, eq_comm]

theorem advance_eq_ok_iff {o p : Offset} {n : Nat} :
    o.advance n = .ok p ↔ o.toNat + n < UInt64.size ∧ p.toNat = o.toNat + n :=
  check_eq_ok_iff

@[simp] theorem advance_zero (o : Offset) : o.advance 0 = .ok o :=
  advance_eq_ok_iff.2 ⟨o.toNat_lt_size, rfl⟩

end Offset

/-- The bytes from `start` up to, but not including, `stop`. Nothing keeps the ends in order. -/
@[ext] structure Span where
  start : Offset
  stop : Offset
  deriving DecidableEq, Repr

namespace Span

def Ordered (s : Span) : Prop := s.start ≤ s.stop

instance (s : Span) : Decidable s.Ordered := inferInstanceAs (Decidable (s.start ≤ s.stop))

/-- The number of bytes covered; none if the ends are inverted. -/
def size (s : Span) : Nat := s.stop.toNat - s.start.toNat

def isEmpty (s : Span) : Bool := decide (s.stop ≤ s.start)

/-- The last byte covered. For an empty span it is the byte before the start, or 0 at the start of the
document. -/
def last (s : Span) : Nat := s.stop.toNat - 1

/-- Whether both spans reach past each other's start. -/
def overlaps (s t : Span) : Bool := decide (s.start < t.stop) && decide (t.start < s.stop)

instance : Membership Nat Span where
  mem s n := s.start.toNat ≤ n ∧ n < s.stop.toNat

theorem mem_def {n : Nat} {s : Span} : n ∈ s ↔ s.start.toNat ≤ n ∧ n < s.stop.toNat := Iff.rfl

def place (origin : Offset) (a b : Nat) : Except Fault Span := do
  return ⟨← origin.advance a, ← origin.advance b⟩

/-- How far the ends lie after `origin`, modulo `2 ^ 64`. -/
def relativeTo (s : Span) (origin : Offset) : Span := ⟨s.start - origin, s.stop - origin⟩

theorem place_eq_ok_iff {origin : Offset} {a b : Nat} {s : Span} :
    place origin a b = .ok s ↔
      origin.advance a = .ok s.start ∧ origin.advance b = .ok s.stop := by
  simp only [place, bind_eq_ok_iff, pure_eq_ok_iff]
  constructor
  · rintro ⟨start, hstart, stop, hstop, rfl⟩
    exact ⟨hstart, hstop⟩
  · rintro ⟨hstart, hstop⟩
    exact ⟨s.start, hstart, s.stop, hstop, rfl⟩

def shift (s : Span) (distance : Offset) : Span := ⟨s.start + distance, s.stop + distance⟩

end Span
end Linewise
