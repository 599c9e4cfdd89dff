import Linewise.Document
import Mathlib.Algebra.GroupWithZero.Nat

/-! Where the lines of a document start: after the texts and the endings of the lines before them. The
starts can be computed exactly when the end of the last line is an offset too. -/
namespace Linewise

/-- The bytes that the texts take with their endings. A missing width counts as one byte. -/
def extent : List String → List Nat → Nat
  | [], _ => 0
  | text :: texts, endings =>
    Text.size text.toList + endings.headD 1 + extent texts endings.tail

@[simp] theorem extent_nil (endings : List Nat) : extent [] endings = 0 := rfl

@[simp] theorem extent_cons (text : String) (texts : List String) (endings : List Nat) :
    extent (text :: texts) endings =
      Text.size text.toList + endings.headD 1 + extent texts endings.tail := rfl

/-- With a width for each text the extent is the sum of sizes and widths. -/
theorem extent_eq_sum {texts : List String} {endings : List Nat}
    (h : endings.length = texts.length) :
    extent texts endings = (texts.map fun text => Text.size text.toList).sum + endings.sum := by
  induction texts generalizing endings with
  | nil => simp_all
  | cons text texts ih =>
    cases endings with
    | nil => simp at h
    | cons width endings =>
      have hrest : extent texts endings = _ := ih (by simpa using h)
      simp only [extent_cons, List.headD_cons, List.tail_cons, List.map_cons, List.sum_cons, hrest]
      omega

theorem extent_take_le (texts : List String) (endings : List Nat) (j : Nat) :
    extent (texts.take j) endings ≤ extent texts endings := by
  induction texts generalizing endings j with
  | nil => simp
  | cons text texts ih =>
    cases j with
    | zero => exact Nat.zero_le _
    | succ j =>
      rw [List.take_succ_cons, extent_cons, extent_cons]
      exact Nat.add_le_add_left (ih endings.tail j) _

theorem extent_append {xs : List String} {endings : List Nat} (h : endings.length = xs.length)
    (ys : List String) (endings' : List Nat) :
    extent (xs ++ ys) (endings ++ endings') = extent xs endings + extent ys endings' := by
  induction xs generalizing endings with
  | nil => simp [List.length_eq_zero_iff.1 h]
  | cons text xs ih =>
    cases endings with
    | nil => cases h
    | cons width endings =>
      have hrest := ih (Nat.succ.inj h)
      simp only [List.cons_append, extent_cons, List.headD_cons, List.tail_cons, hrest, Nat.add_assoc]

/-- Before the line at `j` the texts take the sum of their sizes and widths. -/
theorem extent_take_eq_sum {texts : List String} {endings : List Nat}
    (h : endings.length = texts.length) (j : Nat) :
    extent (texts.take j) endings =
      ((texts.take j).map fun text => Text.size text.toList).sum + (endings.take j).sum := by
  have htake : (endings.take j).length = (texts.take j).length := by simp [h]
  have happend := extent_append htake [] (endings.drop j)
  rw [List.append_nil, List.take_append_drop, extent_nil, Nat.add_zero] at happend
  rw [happend, extent_eq_sum htake]

/-- The starts of consecutive lines, the first at `n`, as long as they are offsets. -/
def startsFrom : Nat → List String → List Nat → List Offset
  | _, [], _ => []
  | n, text :: texts, endings =>
    .ofNat n :: startsFrom (n + (Text.size text.toList + endings.headD 1)) texts endings.tail

@[simp] theorem length_startsFrom (n : Nat) (texts : List String) (endings : List Nat) :
    (startsFrom n texts endings).length = texts.length := by
  induction texts generalizing n endings with
  | nil => rfl
  | cons text texts ih => simp [startsFrom, ih]

theorem startsFrom_append (n : Nat) {xs : List String} {endings : List Nat}
    (h : endings.length = xs.length) (ys : List String) (endings' : List Nat) :
    startsFrom n (xs ++ ys) (endings ++ endings') =
      startsFrom n xs endings ++ startsFrom (n + extent xs endings) ys endings' := by
  induction xs generalizing n endings with
  | nil => simp [startsFrom, List.length_eq_zero_iff.1 h]
  | cons text xs ih =>
    cases endings with
    | nil => cases h
    | cons width endings =>
      simp only [List.cons_append, startsFrom, extent_cons, List.headD_cons, List.tail_cons,
        ih _ (Nat.succ.inj h), Nat.add_assoc]

theorem lineStarts_eq_ok_iff {o : Offset} {texts : List String} {endings : List Nat}
    {starts : List Offset} :
    lineStarts o texts endings = .ok starts ↔
      o.toNat + extent texts endings < UInt64.size ∧
        starts = startsFrom o.toNat texts endings := by
  induction texts generalizing o endings starts with
  | nil =>
    have ho := o.toNat_lt_size
    simp only [lineStarts, startsFrom, extent_nil, Nat.add_zero, ho, true_and, Except.ok.injEq]
    exact eq_comm
  | cons text texts ih =>
    simp only [lineStarts, bind_eq_ok_iff, pure_eq_ok_iff, Offset.advance_eq_ok_iff, startsFrom,
      extent_cons, ih, UInt64.ofNat_toNat]
    constructor
    · rintro ⟨next, ⟨-, hnext⟩, rest, ⟨hfit, rfl⟩, rfl⟩
      rw [hnext] at hfit ⊢
      exact ⟨by omega, rfl⟩
    · rintro ⟨hfit, rfl⟩
      have hnext : o.toNat + (Text.size text.toList + endings.headD 1) < UInt64.size := by omega
      have hval := UInt64.toNat_ofNat_of_lt' hnext
      exact ⟨.ofNat _, ⟨hnext, hval⟩, _, ⟨by rw [hval]; omega, rfl⟩, by rw [hval]⟩

/-- A line starts after the lines before it, whatever comes later. -/
theorem getElem?_startsFrom (n : Nat) (texts : List String) (endings : List Nat) (j : Nat) :
    (startsFrom n texts endings)[j]? =
      if j < texts.length then some (.ofNat (n + extent (texts.take j) endings)) else none := by
  induction texts generalizing n endings j with
  | nil => simp [startsFrom]
  | cons text texts ih =>
    cases j with
    | zero => simp [startsFrom]
    | succ j =>
      simp only [startsFrom, List.getElem?_cons_succ, ih, List.length_cons, Nat.add_lt_add_iff_right,
        List.take_succ_cons, extent_cons, Nat.add_assoc]

/-- Each line ends, without its ending, within the extent of all of them. -/
theorem toNat_start_add_size_lt {n : Nat} {texts : List String} {endings : List Nat}
    (hfit : n + extent texts endings < UInt64.size) {text : String} {start : Offset}
    (h : (text, start) ∈ texts.zip (startsFrom n texts endings)) :
    start.toNat + Text.size text.toList < UInt64.size := by
  induction texts generalizing n endings with
  | nil => simp at h
  | cons first texts ih =>
    rw [extent_cons] at hfit
    simp only [startsFrom, List.zip_cons_cons, List.mem_cons, Prod.mk.injEq] at h
    rcases h with ⟨rfl, rfl⟩ | h
    · rw [UInt64.toNat_ofNat_of_lt' (by omega)]
      omega
    · exact ih (by omega) h

variable {σ : Type} {t : Tokenizer σ}

/-- Lines start where they were analyzed. -/
theorem Tokenizer.map_start_lines {places : List (String × Offset)} {kind : Kind} {s s' : σ}
    {lines : List Line} (h : t.lines places kind s = .ok (lines, s')) :
    lines.map Line.start = places.map Prod.snd := by
  induction places generalizing kind s lines with
  | nil =>
    obtain ⟨rfl, -⟩ := Prod.mk.inj (Except.ok.inj h)
    rfl
  | cons place places ih =>
    obtain ⟨⟨line, s₁⟩, hline, h⟩ := bind_eq_ok_iff.1 h
    obtain ⟨⟨others, s₂⟩, hothers, h⟩ := bind_eq_ok_iff.1 h
    obtain ⟨rfl, rfl⟩ := Prod.mk.inj (pure_eq_ok_iff.1 h)
    obtain ⟨⟨row, s₁'⟩, -, hline⟩ := bind_eq_ok_iff.1 hline
    obtain ⟨rfl, rfl⟩ := Prod.mk.inj (pure_eq_ok_iff.1 hline)
    exact congrArg (place.2 :: ·) (ih hothers)

/-- A document built from texts has a line for each, where the text starts. -/
theorem Document.map_start_build {texts : List String} {endings : List Nat} {s s' : σ}
    {d : Document} (h : Document.build t texts endings s = .ok (d, s')) :
    d.lines.map Line.start = startsFrom 0 texts endings := by
  obtain ⟨starts, hstarts, h⟩ := bind_eq_ok_iff.1 h
  obtain ⟨⟨lines, s''⟩, hlines, h⟩ := bind_eq_ok_iff.1 h
  obtain ⟨rfl, rfl⟩ := Prod.mk.inj (pure_eq_ok_iff.1 h)
  obtain ⟨-, rfl⟩ := lineStarts_eq_ok_iff.1 hstarts
  rw [Tokenizer.map_start_lines hlines]
  exact List.map_snd_zip (Nat.le_of_eq (length_startsFrom _ _ _))

theorem Document.length_lines_build {texts : List String} {endings : List Nat} {s s' : σ}
    {d : Document} (h : Document.build t texts endings s = .ok (d, s')) :
    d.lines.length = texts.length := by
  rw [← List.length_map Line.start, map_start_build h, length_startsFrom]

end Linewise
