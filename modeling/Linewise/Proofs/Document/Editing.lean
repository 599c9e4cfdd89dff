import Linewise.Proofs.Document.Rebuild
import Linewise.Proofs.Text.Edits

/-! A document that follows the edits of a text. The widths of the endings are those of the first
text, and they stay right because an edit that keeps the number of lines keeps their endings. -/
namespace Linewise
open TextLine

variable {σ : Type} {t : Tokenizer σ} {states : σ → Prop} {rule : Rule}

/-- A line has room where it starts after a change of one line, as only later lines are moved. -/
theorem hasRoom_set {n : Nat} {texts : List String} {endings : List Nat} {index : Nat}
    {content : String} (hfit : n + extent texts endings < UInt64.size)
    (hfit' : n + extent (texts.set index content) endings < UInt64.size) :
    List.Forall₂ HasRoom texts (startsFrom n (texts.set index content) endings) := by
  induction texts generalizing n endings index with
  | nil => exact .nil
  | cons text texts ih =>
    rw [extent_cons] at hfit
    have hfirst : HasRoom text (.ofNat n) := by
      unfold HasRoom
      rw [UInt64.toNat_ofNat_of_lt' (by omega)]
      omega
    cases index with
    | zero =>
      rw [List.set_cons_zero, extent_cons, ← Nat.add_assoc] at hfit'
      exact .cons hfirst (startsFrom_hasRoom hfit')
    | succ index =>
      rw [List.set_cons_succ, extent_cons] at hfit'
      exact .cons hfirst (ih (by omega) (by omega))

/-- An update for one changed line gives the document of the new texts. -/
theorem LineLocal.update_document (ht : LineLocal t states rule) {texts : List String}
    {endings : List Nat} {index : Nat} {content : String} (hindex : index < texts.length)
    (hfit : extent texts endings < UInt64.size)
    (hfit' : extent (texts.set index content) endings < UInt64.size) {s : σ} (hs : states s) :
    ∃ s', states s' ∧ (rule.document texts endings).update t (texts.set index content) index s =
      .ok (rule.document (texts.set index content) endings, s') := by
  have hlen : (texts.set index content).length = texts.length := List.length_set
  have hroom : List.Forall₂ HasRoom texts (startsFrom 0 (texts.set index content) endings) :=
    hasRoom_set (by omega) (by omega)
  have hbefore := ht.upToDate_document hlen hroom hs
  obtain ⟨d', s', hrun, hs', hafter⟩ := hbefore.update ht hfit' (hlen ▸ hindex) hs
  have hfresh : UpToDate t states rule (texts.set index content) endings (fun _ => False) d' := by
    refine hafter.mono ?_
    rintro i ⟨hne, hstale⟩
    exact hstale (List.getElem?_set_ne (Ne.symm hne)).symm
  exact ⟨s', hs', by rw [hrun, hfresh.eq_document]⟩

def Rule.ofText (rule : Rule) (text : String) : Document :=
  rule.document ((split text.toList).map string) ((split text.toList).map width)

theorem extent_split (text : String) :
    extent ((split text.toList).map string) ((split text.toList).map width) =
      Text.size text.toList := by
  rw [extent_lines, join_split]

theorem FollowsRule.ofText_eq (ht : FollowsRule t states rule) {text : String}
    (hsize : Text.size text.toList < UInt64.size) {s : σ} (hs : states s) :
    ∃ s', states s' ∧ Document.ofText t text s = .ok (rule.ofText text, s') := by
  rw [Document.ofText_eq_build]
  exact ht.build_eq (by rwa [extent_split]) hs

/-- The step: the update after an edit gives the document of the edited text. -/
theorem LineLocal.update_ofText (ht : LineLocal t states rule) {e : LineEdit} {text : String}
    (h : e.Allowed text) (hsize : Text.size text.toList < UInt64.size) {s : σ} (hs : states s) :
    ∃ s', states s' ∧ (rule.ofText text).update t
      ((Segment.lines (e.apply text)).map Segment.text) e.index s =
        .ok (rule.ofText (e.apply text), s') := by
  have htexts : (split (e.apply text).toList).map string =
      ((split text.toList).map string).set e.index e.content := by
    rw [h.split_eq, map_string_replaceContent]
  have hwidths : (split (e.apply text).toList).map width = (split text.toList).map width := by
    rw [h.split_eq, map_width_replaceContent]
  have hindex : e.index < ((split text.toList).map string).length := by
    have hlt := h.index_lt
    rwa [Segment.lines, Segment.length_place, ← List.length_map string] at hlt
  have hfit := extent_split text
  have hfit' := extent_split (e.apply text)
  rw [Segment.map_text_lines]
  unfold Rule.ofText
  rw [hwidths, htexts] at hfit' ⊢
  exact ht.update_document hindex (hfit ▸ hsize) (hfit' ▸ h.size_lt) hs

/-- The text and the document after each of the edits, where each is followed by an update. -/
def Document.edits (t : Tokenizer σ) : List LineEdit → String → Document → σ →
    Except Fault (List (String × Document) × σ)
  | [], _, _, s => .ok ([], s)
  | e :: rest, text, d, s => do
    let edited := e.apply text
    let (d, s) ← d.update t ((Segment.lines edited).map Segment.text) e.index s
    let (steps, s) ← edits t rest edited d s
    return ((edited, d) :: steps, s)

/-- The run: from the document of a text on, all edits that are allowed are followed, and each time the
document is that of the edited text. -/
theorem LineLocal.edits_ofText (ht : LineLocal t states rule) {edits : List LineEdit} {text : String}
    (h : LineEdit.AllAllowed edits text) (hsize : Text.size text.toList < UInt64.size) {s : σ}
    (hs : states s) :
    ∃ steps s', Document.edits t edits text (rule.ofText text) s = .ok (steps, s') ∧
      steps.length = edits.length ∧
        ∀ p ∈ steps, p.2 = rule.ofText p.1 ∧ Text.size p.1.toList < UInt64.size := by
  induction edits generalizing text s with
  | nil => exact ⟨[], s, rfl, rfl, fun p hp => absurd hp List.not_mem_nil⟩
  | cons e edits ih =>
    obtain ⟨hfirst, hrest⟩ := h
    obtain ⟨s₁, hs₁, hrun⟩ := ht.update_ofText hfirst hsize hs
    obtain ⟨steps, s₂, hruns, hlen, hsteps⟩ := ih hrest hfirst.size_lt hs₁
    refine ⟨(e.apply text, rule.ofText (e.apply text)) :: steps, s₂, ?_, congrArg _ hlen, ?_⟩
    · exact bind_eq_ok_iff.2 ⟨_, hrun, bind_eq_ok_iff.2 ⟨_, hruns, rfl⟩⟩
    · exact List.forall_mem_cons.2 ⟨⟨rfl, hfirst.size_lt⟩, hsteps⟩

/-- A document made from a text and updated after each of its edits has at all times the lines that it
would have if it were made from the edited text. -/
theorem edits_eq_ofText (ht : LineLocal t states rule) {text : String}
    (hsize : Text.size text.toList < UInt64.size) {edits : List LineEdit}
    (hedits : LineEdit.AllAllowed edits text) {s : σ} (hs : states s) :
    ∃ d s₁ steps s₂, Document.ofText t text s = .ok (d, s₁) ∧
      Document.edits t edits text d s₁ = .ok (steps, s₂) ∧ steps.length = edits.length ∧
      ∀ p ∈ steps, ∀ {s' : σ}, states s' →
        ∃ d' s'', Document.ofText t p.1 s' = .ok (d', s'') ∧ p.2.lines = d'.lines := by
  obtain ⟨s₁, hs₁, hbuild⟩ := ht.ofText_eq hsize hs
  obtain ⟨steps, s₂, hrun, hlen, hsteps⟩ := ht.edits_ofText hedits hsize hs₁
  refine ⟨_, s₁, steps, s₂, hbuild, hrun, hlen, ?_⟩
  intro p hp s' hs'
  obtain ⟨hdocument, hfit⟩ := hsteps p hp
  obtain ⟨s'', -, hrebuild⟩ := ht.ofText_eq hfit hs'
  exact ⟨_, s'', hrebuild, congrArg Document.lines hdocument⟩

theorem edits_eq_ofText_parens :
    let text := "(\r\na\r\r)"
    let edits : List LineEdit := [⟨1, ""⟩, ⟨0, "(é("⟩, ⟨3, "b"⟩]
    let s : Traced := .start (Grammar.Parens.tokenizer "parens" 0)
    LineEdit.AllAllowed edits text ∧
      ∃ d s₁ steps s₂, Document.ofText Traced.tokenizer text s = .ok (d, s₁) ∧
        Document.edits Traced.tokenizer edits text d s₁ = .ok (steps, s₂) ∧
        steps.map Prod.fst = ["(\r\n\r\r)", "(é(\r\n\r\r)", "(é(\r\n\r\rb"] ∧
        ∀ p ∈ steps, ∃ d' s', Document.ofText Traced.tokenizer p.1 s = .ok (d', s') ∧
          p.2.lines = d'.lines := by
  intro text edits s
  have hallowed : LineEdit.AllAllowed edits text := by decide +kernel
  have hsize : Text.size text.toList < UInt64.size := by decide +kernel
  obtain ⟨rule, ht⟩ := (Grammar.Parens.tokenizer_steady "parens" 0).exists_lineLocal
  have hs : s.current.fresh = (Grammar.Parens.tokenizer "parens" 0).fresh := rfl
  obtain ⟨d, s₁, steps, s₂, hbuild, hrun, -, hsteps⟩ := edits_eq_ofText ht hsize hallowed hs
  refine ⟨hallowed, d, s₁, steps, s₂, hbuild, hrun, ?_, fun p hp => hsteps p hp hs⟩
  have htexts : ((Document.ofText Traced.tokenizer text s).bind fun p =>
      (Document.edits Traced.tokenizer edits text p.1 p.2).map fun q => q.1.map Prod.fst) =
        .ok ["(\r\n\r\r)", "(é(\r\n\r\r)", "(é(\r\n\r\rb"] := by
    decide +kernel
  rw [hbuild] at htexts
  simp only [Except.bind, hrun, Except.map] at htexts
  exact Except.ok.inj htexts

end Linewise
