import Linewise.Document
import Linewise.Proofs.Tokenizer.Locality

/-! An update of a document seen through its shapes. For a tokenizer that follows a rule it replaces
shapes by those of the rule, up to the first that is the cached one already, and puts all lines from
there on in their places. -/
namespace Linewise

namespace Rule

def settle (rule : Rule) : List String → List Shape → Kind → Option Context → List Shape
  | text :: texts, cached :: xs, kind, context =>
    let x := rule text kind context
    x :: if cached = x then xs else rule.settle texts xs x.continuation x.context
  | _, _, _, _ => []

theorem length_settle (rule : Rule) {texts : List String} {xs : List Shape}
    (h : texts.length = xs.length) (kind : Kind) (context : Option Context) :
    (rule.settle texts xs kind context).length = xs.length := by
  induction texts generalizing xs kind context with
  | nil => simp_all [settle]
  | cons text texts ih =>
    cases xs with
    | nil => simp at h
    | cons cached xs =>
      simp only [settle, List.length_cons]
      split
      · rfl
      · rw [ih (Nat.succ.inj h)]

/-- Each shape but the stale ones is what the rule makes of its text after the line before it. -/
def Coherent (rule : Rule) (stale : Nat → Prop) :
    List String → List Shape → Kind → Option Context → Prop
  | [], [], _, _ => True
  | text :: texts, x :: xs, kind, context =>
    (¬ stale 0 → x = rule text kind context) ∧
      rule.Coherent (fun i => stale (i + 1)) texts xs x.continuation x.context
  | _, _, _, _ => False

end Rule

namespace Shape

def before (kind : Kind) (context : Option Context) (xs : List Shape) :
    Nat → Kind × Option Context
  | 0 => (kind, context)
  | index + 1 =>
    match xs[index]? with
    | some x => (x.continuation, x.context)
    | none => (.null, none)

theorem before_cons_succ (kind : Kind) (context : Option Context) (x : Shape) (xs : List Shape)
    (index : Nat) :
    before kind context (x :: xs) (index + 1) = before x.continuation x.context xs index := by
  cases index <;> rfl

end Shape

namespace Rule

variable {rule : Rule} {stale stale' : Nat → Prop} {texts : List String} {xs : List Shape}
  {kind : Kind} {context : Option Context}

theorem Coherent.mono (h : rule.Coherent stale texts xs kind context)
    (himp : ∀ i, stale i → stale' i) : rule.Coherent stale' texts xs kind context := by
  induction texts generalizing xs stale stale' kind context with
  | nil =>
    cases xs with
    | nil => trivial
    | cons x xs => exact h.elim
  | cons text texts ih =>
    cases xs with
    | nil => exact h.elim
    | cons x xs =>
      obtain ⟨hfirst, hrest⟩ := h
      constructor
      · intro hfresh
        apply hfirst
        intro hstale
        exact hfresh (himp 0 hstale)
      · apply ih hrest
        intro i hstale
        exact himp (i + 1) hstale

/-- Settling makes the first shape fresh, from whatever kind and context it starts: where it stops,
the next shape finds its predecessor in the shape that it was made after. -/
theorem Coherent.settle (h : rule.Coherent stale texts xs kind context) (kind' : Kind)
    (context' : Option Context) :
    rule.Coherent (fun i => i ≠ 0 ∧ stale i) texts (rule.settle texts xs kind' context')
      kind' context' := by
  induction texts generalizing xs stale kind context kind' context' with
  | nil =>
    cases xs with
    | nil => trivial
    | cons x xs => exact h.elim
  | cons text texts ih =>
    cases xs with
    | nil => exact h.elim
    | cons cached xs =>
      obtain ⟨-, hrest⟩ := h
      refine ⟨fun _ => rfl, ?_⟩
      by_cases hsame : cached = rule text kind' context'
      · rw [if_pos hsame, ← hsame]
        apply hrest.mono
        intro i hstale
        exact ⟨Nat.succ_ne_zero i, hstale⟩
      · rw [if_neg hsame]
        apply (ih hrest _ _).mono
        rintro i ⟨-, hstale⟩
        exact ⟨Nat.succ_ne_zero i, hstale⟩

/-- Settling from the line at `index` on makes that line fresh and none stale. -/
theorem Coherent.settle_drop (h : rule.Coherent stale texts xs kind context) {index : Nat}
    (hindex : index < texts.length) :
    rule.Coherent (fun i => i ≠ index ∧ stale i) texts
      (xs.take index ++ rule.settle (texts.drop index) (xs.drop index)
        (Shape.before kind context xs index).1 (Shape.before kind context xs index).2)
      kind context := by
  induction texts generalizing xs stale kind context index with
  | nil => simp at hindex
  | cons text texts ih =>
    cases xs with
    | nil => exact h.elim
    | cons x xs =>
      cases index with
      | zero => exact h.settle kind context
      | succ index =>
        obtain ⟨hfirst, hrest⟩ := h
        have hlater := ih hrest (Nat.lt_of_succ_lt_succ hindex)
        rw [Shape.before_cons_succ]
        constructor
        · intro hfresh
          apply hfirst
          intro hstale
          exact hfresh ⟨(Nat.succ_ne_zero index).symm, hstale⟩
        · apply hlater.mono
          rintro i ⟨hne, hstale⟩
          exact ⟨fun heq => hne (Nat.succ.inj heq), hstale⟩

/-- Without stale shapes they are those of the rule. -/
theorem Coherent.eq_shapes (h : rule.Coherent (fun _ => False) texts xs kind context) :
    xs = rule.shapes texts kind context := by
  induction texts generalizing xs kind context with
  | nil =>
    cases xs with
    | nil => rfl
    | cons x xs => exact h.elim
  | cons text texts ih =>
    cases xs with
    | nil => exact h.elim
    | cons x xs =>
      obtain ⟨hfirst, hrest⟩ := h
      rw [hfirst not_false] at hrest ⊢
      rw [ih hrest]
      rfl

/-- The shapes of other texts are stale where those differ. -/
theorem coherent_shapes (rule : Rule) {texts texts' : List String}
    (hlen : texts'.length = texts.length) (kind : Kind) (context : Option Context) :
    rule.Coherent (fun i => texts[i]? ≠ texts'[i]?) texts' (rule.shapes texts kind context)
      kind context := by
  induction texts generalizing texts' kind context with
  | nil =>
    rw [List.length_eq_zero_iff.1 hlen]
    trivial
  | cons text texts ih =>
    cases texts' with
    | nil => simp at hlen
    | cons text' texts' =>
      constructor
      · intro hfresh
        have htext : text = text' := by simpa using hfresh
        rw [htext]
      · exact ih (Nat.succ.inj hlen) _ _

end Rule
end Linewise
