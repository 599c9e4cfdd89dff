/-! The ways in which an operation on a text stops without a result, and what it takes for a sequence
of operations to have one. -/
namespace Linewise

/-- An offset left the 64-bit range, a token or a cut was out of order, or a grammar or a constructor
gave up with a message of its own. -/
inductive Fault where
  | offsetOverflow
  | invertedSpan
  | badSlice
  | raised (message : String)
  deriving DecidableEq, Repr

def Fault.message : Fault → String
  | .offsetOverflow => "attempt to add with overflow"
  | .invertedSpan => "token range must be ordered"
  | .badSlice => "bad slice"
  | .raised message => message

variable {ε α β : Type}

/-- A sequence has a result exactly when each of its steps has one in turn. -/
theorem bind_eq_ok_iff {x : Except ε α} {f : α → Except ε β} {b : β} :
    x >>= f = .ok b ↔ ∃ a, x = .ok a ∧ f a = .ok b := by
  cases x <;> simp [bind, Except.bind]

theorem bind_of_eq_ok {x : Except ε α} {f : α → Except ε β} {a : α} {y : Except ε β}
    (hx : x = .ok a) (h : x >>= f = y) : f a = y := by
  rw [hx] at h
  exact h

theorem pure_eq_ok_iff {a b : α} : (pure a : Except ε α) = .ok b ↔ a = b := by
  simp [pure, Except.pure]

/-- Where an element has no result, and there is only one fault, that is the fault of the list. -/
theorem mapM_eq_ite {f : α → Except ε β} {g : α → β} {fault : ε} {p : α → Prop} [DecidablePred p]
    (h : ∀ x, f x = if p x then .ok (g x) else .error fault) (xs : List α) :
    xs.mapM f = if ∀ x ∈ xs, p x then .ok (xs.map g) else .error fault := by
  induction xs with
  | nil => simp [pure, Except.pure]
  | cons x xs ih =>
    rw [List.mapM_cons, h, ih]
    by_cases hfirst : p x
    · by_cases hrest : ∀ y ∈ xs, p y
      · rw [if_pos hfirst, if_pos hrest, if_pos (List.forall_mem_cons.2 ⟨hfirst, hrest⟩)]
        rfl
      · rw [if_pos hfirst, if_neg hrest, if_neg fun hall => hrest (List.forall_mem_cons.1 hall).2]
        rfl
    · rw [if_neg hfirst, if_neg fun hall => hfirst (List.forall_mem_cons.1 hall).1]
      rfl

end Linewise
