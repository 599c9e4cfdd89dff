import Linewise.Proofs.Document.Displacement
import Linewise.Proofs.Document.Editing

/-! The document of a text beside that of its lines with endings of one byte. Of the endings that a line
can have before another one only CRLF is wider, so that a line of the first is further on by one byte for
each CRLF before it. -/
namespace Linewise

namespace TextLine

def crlfs (ls : List TextLine) : Nat := (ls.map ending).count .crlf

theorem crlfs_cons (l : TextLine) (ls : List TextLine) :
    crlfs (l :: ls) = crlfs ls + if l.ending = .crlf then 1 else 0 := by
  simp [crlfs, List.count_cons]

theorem width_of_ended {l : TextLine} (h : l.ending ≠ .missing) :
    l.width = 1 + if l.ending = .crlf then 1 else 0 := by
  unfold width
  cases hending : l.ending with
  | lf | crlf | cr => rfl
  | missing => exact absurd hending h

/-- Every line with another one after it has an ending. -/
theorem Consecutive.ended {l : TextLine} {ls : List TextLine} (h : Consecutive (l :: ls))
    (hne : ls ≠ []) : l.ending ≠ .missing :=
  fun hmissing => hne (h.2.1 hmissing)

/-- Before a line, the endings of a text take one byte each and another one for each CRLF. -/
theorem extent_take_widths {ls : List TextLine} (h : Consecutive ls) {j : Nat} (hj : j < ls.length) :
    extent ((ls.map string).take j) (ls.map width) =
      extent ((ls.map string).take j) ((ls.map string).map fun _ => 1) + crlfs (ls.take j) := by
  induction ls generalizing j with
  | nil => exact absurd hj (Nat.not_lt_zero j)
  | cons l ls ih =>
    cases j with
    | zero => rfl
    | succ j =>
      have hlt : j < ls.length := Nat.lt_of_succ_lt_succ hj
      have hwidth := width_of_ended (h.ended (List.ne_nil_of_length_pos (by omega)))
      have hrest := ih h.2.2 hlt
      simp only [List.map_cons, List.take_succ_cons, extent_cons, List.headD_cons, List.tail_cons,
        hrest, hwidth, crlfs_cons]
      omega

/-- Only a missing ending is narrower than one byte. -/
theorem extent_ones_le {ls : List TextLine} (h : Consecutive ls) :
    extent (ls.map string) ((ls.map string).map fun _ => 1) ≤ Text.size (join ls) + 1 := by
  induction ls with
  | nil => exact Nat.zero_le _
  | cons l ls ih =>
    have hrest := ih h.2.2
    simp only [List.map_cons, extent_cons, List.headD_cons, List.tail_cons, join_cons,
      Text.size_append, size_text, toList_string]
    by_cases hnil : ls = []
    · simp only [hnil, List.map_nil, extent_nil, join_nil, Text.size_nil]
      omega
    · have hwidth := width_of_ended (h.ended hnil)
      omega

theorem crlfs_eq_zero {ls ms : List TextLine} (h : ¬ ['\r', '\n'] <:+: join ls)
    (hms : ms ⊆ ls) : crlfs ms = 0 := by
  unfold crlfs
  rw [List.count_eq_zero, List.mem_map]
  rintro ⟨l, hl, hending⟩
  rcases List.append_of_mem (hms hl) with ⟨before, after, hls⟩
  apply h
  use join before ++ l.content, join after
  simp [hls, join, text, hending, Ending.text]

end TextLine

open TextLine

variable {σ : Type} {t : Tokenizer σ} {states : σ → Prop} {rule : Rule}

theorem FollowsRule.displaced_ofText (ht : FollowsRule t states rule) {s : σ} (hs : states s)
    {text : String} (hsize : Text.size text.toList < UInt64.size) {j : Nat} {l l' : Line}
    (hl : (rule.ofText text).lines[j]? = some l)
    (hl' : (rule.document ((split text.toList).map string)
      (((split text.toList).map string).map fun _ => 1)).lines[j]? = some l') :
    l'.Displaced (crlfs ((split text.toList).take j)) l := by
  have hfit : extent ((split text.toList).map string) ((split text.toList).map width) <
      UInt64.size := by
    rwa [extent_split]
  rcases List.getElem?_zipWith_eq_some.1 hl with ⟨x, start, hx, -, -⟩
  have hj : j < (split text.toList).length := by
    have hlt := (List.getElem?_eq_some_iff.1 hx).1
    simpa using hlt
  exact ht.displaced_document hs hfit (extent_take_widths (consecutive_split text.toList) hj) hl' hl

/-- The document of a text and that of its lines, taken to have endings of one byte, have the same lines
but for their places. These differ by the number of CRLF before the line, so not at all in a text that has
none. -/
theorem ofText_displaced (ht : FollowsRule t states rule) {text : String}
    (hsize : Text.size text.toList + 1 < UInt64.size) {s s' : σ} (hs : states s) (hs' : states s') :
    ∃ d s₁ d' s₁', Document.ofText t text s = .ok (d, s₁) ∧
      Document.ofLines t ((Segment.lines text).map Segment.text) s' = .ok (d', s₁') ∧
      d.lines.length = d'.lines.length ∧
      (∀ {j : Nat} {l l' : Line}, d.lines[j]? = some l → d'.lines[j]? = some l' →
        l'.Displaced (crlfs ((split text.toList).take j)) l) ∧
      (¬ ['\r', '\n'] <:+: text.toList → d.lines = d'.lines) := by
  have hsize' : Text.size text.toList < UInt64.size := Nat.lt_of_succ_lt hsize
  have hones := extent_ones_le (consecutive_split text.toList)
  rw [join_split] at hones
  rcases ht.ofText_eq hsize' hs with ⟨s₁, -, hbuild⟩
  rcases ht.build_eq (Nat.lt_of_le_of_lt hones hsize) hs' with ⟨s₁', -, hbuild'⟩
  have hlen : (rule.ofText text).lines.length = (rule.document ((split text.toList).map string)
      (((split text.toList).map string).map fun _ => 1)).lines.length := by
    simp [Rule.ofText, Rule.document]
  rw [Segment.map_text_lines]
  refine ⟨_, s₁, _, s₁', hbuild, hbuild', hlen, fun hl hl' => ht.displaced_ofText hs hsize' hl hl', ?_⟩
  intro hnone
  apply List.ext_getElem hlen
  intro j hj hj'
  have hplace := ht.displaced_ofText hs hsize' (List.getElem?_eq_getElem hj)
    (List.getElem?_eq_getElem hj')
  rw [← join_split text.toList] at hnone
  rw [crlfs_eq_zero hnone (List.take_subset j _)] at hplace
  exact hplace.eq_of_zero.symm

/-- Two of the four endings before the last line are CRLF, and the context passes all of them. Another
text has three endings, all of one byte. -/
theorem ofText_displaced_parens :
    let text := "(\r\na\r\r\n\nb"
    let narrow := "(\n\ra\r"
    let s : Traced := .start (Grammar.Parens.tokenizer "parens" 0)
    (∃ d s₁ d' s₁', Document.ofText Traced.tokenizer text s = .ok (d, s₁) ∧
      Document.ofLines Traced.tokenizer ["(", "a", "", "", "b"] s = .ok (d', s₁') ∧
      ∃ l l', d.lines[4]? = some l ∧ d'.lines[4]? = some l' ∧ l'.Displaced 2 l ∧
        l.context = some (.nesting 1)) ∧
      ∃ d s₁ d' s₁', Document.ofText Traced.tokenizer narrow s = .ok (d, s₁) ∧
        Document.ofLines Traced.tokenizer ["(", "", "a"] s = .ok (d', s₁') ∧ d.lines = d'.lines := by
  intro text narrow s
  rcases (Grammar.Parens.tokenizer_steady "parens" 0).exists_lineLocal with ⟨rule, ht⟩
  have hs : s.current.fresh = (Grammar.Parens.tokenizer "parens" 0).fresh := rfl
  have hsize : Text.size text.toList + 1 < UInt64.size := by decide +kernel
  have hsize' : Text.size narrow.toList + 1 < UInt64.size := by decide +kernel
  constructor
  · rcases ofText_displaced ht.toFollowsRule hsize hs hs with
      ⟨d, s₁, d', s₁', hbuild, hbuild', hlen, hplaces, -⟩
    have htexts : (Segment.lines text).map Segment.text = ["(", "a", "", "", "b"] := by
      decide +kernel
    have hcrlfs : crlfs ((split text.toList).take 4) = 2 := by decide +kernel
    have hcontexts : (Document.ofText Traced.tokenizer text s).map
        (fun p => p.1.lines.map Line.context) = .ok (List.replicate 5 (some (.nesting 1))) := by
      decide +kernel
    rw [htexts] at hbuild'
    rw [hbuild] at hcontexts
    have hall : d.lines.map Line.context = List.replicate 5 (some (.nesting 1)) :=
      Except.ok.inj hcontexts
    have hcount : d.lines.length = 5 := by simpa using congrArg List.length hall
    have hl := List.getElem?_eq_getElem (show 4 < d.lines.length by omega)
    have hl' := List.getElem?_eq_getElem (show 4 < d'.lines.length by omega)
    have hplace := hplaces hl hl'
    rw [hcrlfs] at hplace
    have hlast := congrArg (·[4]?) hall
    simp only [List.getElem?_map, hl] at hlast
    exact ⟨d, s₁, d', s₁', hbuild, hbuild', _, _, hl, hl', hplace, Option.some.inj hlast⟩
  · rcases ofText_displaced ht.toFollowsRule hsize' hs hs with
      ⟨d, s₁, d', s₁', hbuild, hbuild', -, -, hequal⟩
    have htexts : (Segment.lines narrow).map Segment.text = ["(", "", "a"] := by decide +kernel
    rw [htexts] at hbuild'
    exact ⟨d, s₁, d', s₁', hbuild, hbuild', hequal (by decide +kernel)⟩

end Linewise
