import Linewise.TextLine

/-! Lines put together and split again. Two things can be lost on the way: an unended last line with
nothing in it, and the border between a line that ends in CR and an empty one that ends in LF. Either
costs a line, so lines that keep their number are kept as they are. -/
namespace Linewise.TextLine

def Unbroken (s : List Char) : Prop := ∀ c ∈ s, c ≠ '\n' ∧ c ≠ '\r'

instance (s : List Char) : Decidable (Unbroken s) :=
  List.decidableBAll (fun c => c ≠ '\n' ∧ c ≠ '\r') s

/-- Lines that follow each other in a text: none but the last is without an ending. -/
def Consecutive : List TextLine → Prop
  | [] => True
  | l :: ls => Unbroken l.content ∧ (l.ending = .missing → ls = []) ∧ Consecutive ls

theorem split_cr {s : List Char} (h : ∀ rest, s ≠ '\n' :: rest) :
    split ('\r' :: s) = ⟨[], .cr⟩ :: split s := by
  rw [split]
  exact h

theorem split_cons {c : Char} (h : c ≠ '\n' ∧ c ≠ '\r') (s : List Char) :
    split (c :: s) = extendFirst c (split s) := by
  rw [split]
  · exact h.1
  · intro _ hc
    exact absurd hc h.2
  · exact h.2

theorem split_append {content s : List Char} {l : TextLine} {ls : List TextLine}
    (h : Unbroken content) (hs : split s = l :: ls) :
    split (content ++ s) = ⟨content ++ l.content, l.ending⟩ :: ls := by
  induction content with
  | nil => exact hs
  | cons c content ih =>
    have hrest := ih fun d hd => h d (List.mem_cons_of_mem c hd)
    rw [List.cons_append, split_cons (h c List.mem_cons_self), hrest]
    rfl

theorem split_unbroken {content : List Char} (h : Unbroken content) (hne : content ≠ []) :
    split content = [⟨content, .missing⟩] := by
  induction content with
  | nil => exact absurd rfl hne
  | cons c content ih =>
    rw [split_cons (h c List.mem_cons_self)]
    cases content with
    | nil => rfl
    | cons d content =>
      rw [ih (fun e he => h e (List.mem_cons_of_mem c he)) (List.cons_ne_nil d content)]
      rfl

theorem consecutive_extendFirst {c : Char} (h : c ≠ '\n' ∧ c ≠ '\r') {ls : List TextLine}
    (hls : Consecutive ls) : Consecutive (extendFirst c ls) := by
  cases ls with
  | nil =>
    refine ⟨?_, fun _ => rfl, trivial⟩
    rintro d hd
    rw [List.mem_singleton.1 hd]
    exact h
  | cons l ls =>
    refine ⟨?_, hls.2.1, hls.2.2⟩
    rintro d hd
    rcases List.mem_cons.1 hd with rfl | hd
    · exact h
    · exact hls.1 d hd

theorem consecutive_split (s : List Char) : Consecutive (split s) := by
  have hnil : Unbroken [] := by simp [Unbroken]
  fun_induction split s with
  | case1 => trivial
  | case2 s ih => exact ⟨hnil, by simp, ih⟩
  | case3 s ih => exact ⟨hnil, by simp, ih⟩
  | case4 s _ ih => exact ⟨hnil, by simp, ih⟩
  | case5 c s hlf _ hcr ih => exact consecutive_extendFirst ⟨hlf, hcr⟩ ih

/-- The first line is split off as it is, unless it has nothing in it at all or an LF is put right
behind its CR. -/
theorem split_join_cons {l : TextLine} {ls : List TextLine} (hcontent : Unbroken l.content)
    (hlast : l.ending = .missing → l.content ≠ [] ∧ ls = [])
    (hborder : l.ending = .cr → ∀ rest, join ls ≠ '\n' :: rest) :
    split (join (l :: ls)) = l :: split (join ls) := by
  obtain ⟨content, ending⟩ := l
  have hjoin : join (⟨content, ending⟩ :: ls) = content ++ (ending.text ++ join ls) := by
    simp [text]
  have hended (hs : split (ending.text ++ join ls) = ⟨[], ending⟩ :: split (join ls)) :
      split (join (⟨content, ending⟩ :: ls)) = ⟨content, ending⟩ :: split (join ls) := by
    rw [hjoin, split_append hcontent hs, List.append_nil]
  cases ending with
  | lf => exact hended (by simp [Ending.text, split])
  | crlf => exact hended (by simp [Ending.text, split])
  | cr => exact hended (split_cr (hborder rfl))
  | missing =>
    obtain ⟨hne, rfl⟩ := hlast rfl
    rw [hjoin, Ending.text, join_nil, List.append_nil, List.append_nil]
    exact split_unbroken hcontent hne

/-- Splitting the joined lines gives no more of them, and gives them back if it gives as many. -/
theorem split_join_of_consecutive {ls : List TextLine} (h : Consecutive ls) :
    (split (join ls)).length ≤ ls.length ∧
      ((split (join ls)).length = ls.length → split (join ls) = ls) := by
  induction ls with
  | nil => exact ⟨Nat.le_refl _, fun _ => rfl⟩
  | cons l ls ih =>
    obtain ⟨hcontent, hlast, hrest⟩ := h
    obtain ⟨hle, heq⟩ := ih hrest
    by_cases hempty : l.ending = .missing ∧ l.content = []
    · obtain rfl := hlast hempty.1
      simp [text, Ending.text, hempty, split]
    · by_cases hlost : l.ending = .cr ∧ ∃ rest, join ls = '\n' :: rest
      · obtain ⟨hcr, rest, hrest⟩ := hlost
        have hsplit : split (Ending.cr.text ++ '\n' :: rest) = ⟨[], .crlf⟩ :: split rest := by
          simp [Ending.text, split]
        rw [hrest] at hle
        rw [join_cons, text, hcr, hrest, List.append_assoc, split_append hcontent hsplit]
        simp only [split, List.length_cons] at hle ⊢
        exact ⟨by omega, fun hlen => by omega⟩
      · have hlast' : l.ending = .missing → l.content ≠ [] ∧ ls = [] := fun hmissing =>
          ⟨fun hnil => hempty ⟨hmissing, hnil⟩, hlast hmissing⟩
        have hborder : l.ending = .cr → ∀ rest, join ls ≠ '\n' :: rest := fun hcr rest hjoin =>
          hlost ⟨hcr, rest, hjoin⟩
        rw [split_join_cons hcontent hlast' hborder, List.length_cons, List.length_cons]
        refine ⟨Nat.succ_le_succ hle, fun hlen => ?_⟩
        rw [heq (Nat.succ.inj hlen)]

def replaceContent (index : Nat) (content : List Char) (ls : List TextLine) : List TextLine :=
  ls.modify index fun l => { l with content }

@[simp] theorem length_replaceContent (index : Nat) (content : List Char) (ls : List TextLine) :
    (replaceContent index content ls).length = ls.length := List.length_modify ..

@[simp] theorem map_ending_replaceContent (index : Nat) (content : List Char)
    (ls : List TextLine) : (replaceContent index content ls).map ending = ls.map ending := by
  induction ls generalizing index with
  | nil => simp [replaceContent]
  | cons l ls ih =>
    cases index with
    | zero => rfl
    | succ index => simpa [replaceContent] using ih index

theorem consecutive_replaceContent {index : Nat} {content : List Char} {ls : List TextLine}
    (h : Consecutive ls) (hcontent : Unbroken content) :
    Consecutive (replaceContent index content ls) := by
  induction ls generalizing index with
  | nil => simpa [replaceContent] using h
  | cons l ls ih =>
    obtain ⟨hl, hlast, hls⟩ := h
    cases index with
    | zero => exact ⟨hcontent, hlast, hls⟩
    | succ index =>
      have hlast' : l.ending = .missing → replaceContent index content ls = [] := by
        intro hmissing
        rw [hlast hmissing]
        exact List.modify_nil ..
      exact ⟨hl, hlast', ih hls⟩

/-- Another content in one line leaves all endings alone, unless it costs a line. -/
theorem split_join_replaceContent {index : Nat} {content s : List Char}
    (hcontent : Unbroken content)
    (hlen : (split (join (replaceContent index content (split s)))).length = (split s).length) :
    split (join (replaceContent index content (split s))) =
      replaceContent index content (split s) := by
  have hkeep : Consecutive (replaceContent index content (split s)) :=
    consecutive_replaceContent (consecutive_split s) hcontent
  exact (split_join_of_consecutive hkeep).2 (by rw [length_replaceContent]; exact hlen)

end Linewise.TextLine
