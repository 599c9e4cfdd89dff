import Linewise.Proofs.Document.Updating
import Linewise.Proofs.Grammar

/-! Updates in any order against a build from scratch. While some lines have changed and are not yet
updated, all other cached lines follow from their cached predecessors, however stale those are. An
update keeps this and leaves its own line fresh, so that updates of all changed lines leave the
document as it would be built from the new texts. Another number of lines makes the document anew, but
the index is looked at first: where the last lines were taken out, an index of one of them leaves the
document as it was. -/
namespace Linewise

variable {σ : Type} {t : Tokenizer σ} {states : σ → Prop} {rule : Rule}

def Document.updates (t : Tokenizer σ) (texts : List String) :
    List Nat → Document → σ → Except Fault (Document × σ)
  | [], d, s => .ok (d, s)
  | index :: indices, d, s => do
    let (d, s) ← d.update t texts index s
    updates t texts indices d s

/-- The document has been updated for `texts` but for the stale lines. A line is where it belongs as
soon as none before it is stale. -/
structure UpToDate (t : Tokenizer σ) (states : σ → Prop) (rule : Rule) (texts : List String)
    (endings : List Nat) (stale : Nat → Prop) (d : Document) : Prop where
  endings_eq : d.endings = endings
  usable : List.Forall₂ (Usable t states) (d.lines.map Line.shape) (startsFrom 0 texts endings)
  coherent : rule.Coherent stale texts (d.lines.map Line.shape) .null none
  placed : ∀ j, (∀ i, i < j → ¬ stale i) →
    (d.lines.map Line.start)[j]? = (startsFrom 0 texts endings)[j]?

namespace UpToDate

variable {texts : List String} {endings : List Nat} {stale : Nat → Prop} {d : Document}

theorem length_eq (h : UpToDate t states rule texts endings stale d) :
    d.lines.length = texts.length := by
  simpa using h.usable.length_eq

theorem mono {stale' : Nat → Prop} (h : UpToDate t states rule texts endings stale d)
    (himp : ∀ i, stale i → stale' i) : UpToDate t states rule texts endings stale' d := by
  refine ⟨h.endings_eq, h.usable, h.coherent.mono himp, ?_⟩
  intro j hj
  apply h.placed
  intro i hi hstale
  exact hj i hi (himp i hstale)

theorem eq_document (h : UpToDate t states rule texts endings (fun _ => False) d) :
    d = rule.document texts endings := by
  have hlen : (startsFrom 0 texts endings).length = (rule.shapes texts .null none).length := by simp
  have hlines : d.lines = (rule.document texts endings).lines := by
    apply Line.lines_eq_of_shapes_starts
    · rw [h.coherent.eq_shapes]
      exact (map_shape_zipWith_lineAt hlen).symm
    · unfold Rule.document
      rw [map_start_zipWith_lineAt hlen]
      exact List.ext_getElem? fun j => h.placed j fun _ _ => not_false
  cases d with
  | mk lines widths =>
    obtain rfl : widths = endings := h.endings_eq
    exact congrArg (Document.mk · widths) hlines

/-- The step: an update of a line leaves it fresh and makes no other line stale. -/
theorem update (ht : LineLocal t states rule) (hfit : extent texts endings < UInt64.size)
    (h : UpToDate t states rule texts endings stale d) {index : Nat} (hindex : index < texts.length)
    {s : σ} (hs : states s) :
    ∃ d' s', d.update t texts index s = .ok (d', s') ∧ states s' ∧
      UpToDate t states rule texts endings (fun i => i ≠ index ∧ stale i) d' := by
  have hlen := h.length_eq
  obtain rfl := h.endings_eq
  obtain ⟨s', hs', hrun⟩ := ht.update_eq hfit h.usable hindex hs
  refine ⟨rule.update texts index d, s', hrun, hs', rfl, ?_, ?_, ?_⟩
  · have hstarts : 0 + extent texts d.endings < UInt64.size := by omega
    have hroom := List.forall₂_drop index (startsFrom_hasRoom hstarts)
    have hsettled := ht.settle_usable hroom (List.forall₂_drop index h.usable)
      (before_reported h.usable ⟨_, ht.reset hs⟩ index)
      (Shape.before .null none (d.lines.map Line.shape) index).1
    have hall := List.rel_append (List.forall₂_take index h.usable) hsettled
    rwa [rule.map_shape_update hlen, ← List.take_append_drop index (startsFrom 0 texts d.endings)]
  · rw [rule.map_shape_update hlen]
    exact h.coherent.settle_drop hindex
  · intro j hj
    rw [rule.map_start_update hlen]
    rcases Nat.lt_or_ge j index with hlt | hge
    · rw [List.getElem?_append_left (by simp; omega), List.getElem?_take_of_lt hlt]
      apply h.placed
      intro i hi hstale
      exact hj i hi ⟨by omega, hstale⟩
    · rw [List.getElem?_append_right (by simp; omega)]
      simp only [List.length_take, List.length_map, hlen, List.getElem?_drop]
      congr 1
      omega

/-- The run: updates leave stale only lines that were so before and are not among theirs. -/
theorem updates (ht : LineLocal t states rule) (hfit : extent texts endings < UInt64.size)
    (h : UpToDate t states rule texts endings stale d) {indices : List Nat}
    (hindices : ∀ i ∈ indices, i < texts.length) {s : σ} (hs : states s) :
    ∃ d' s', Document.updates t texts indices d s = .ok (d', s') ∧ states s' ∧
      UpToDate t states rule texts endings (fun i => i ∉ indices ∧ stale i) d' := by
  induction indices generalizing stale d s with
  | nil => exact ⟨d, s, rfl, hs, h.mono fun i hi => ⟨List.not_mem_nil, hi⟩⟩
  | cons index indices ih =>
    obtain ⟨d₁, s₁, hrun, hs₁, h₁⟩ := h.update ht hfit (hindices index List.mem_cons_self) hs
    obtain ⟨d₂, s₂, hruns, hs₂, h₂⟩ :=
      ih h₁ (fun i hi => hindices i (List.mem_cons_of_mem index hi)) hs₁
    refine ⟨d₂, s₂, bind_eq_ok_iff.2 ⟨_, hrun, hruns⟩, hs₂, h₂.mono ?_⟩
    rintro i ⟨hmem, hne, hstale⟩
    exact ⟨fun hi => (List.mem_cons.1 hi).elim hne hmem, hstale⟩

end UpToDate

/-- A document built from other texts is up to date but for the lines that differ. -/
theorem LineLocal.upToDate_document (ht : LineLocal t states rule) {texts texts' : List String}
    {endings : List Nat} (hlen : texts'.length = texts.length)
    (hroom : List.Forall₂ HasRoom texts (startsFrom 0 texts' endings)) {s : σ} (hs : states s) :
    UpToDate t states rule texts' endings (fun i => texts[i]? ≠ texts'[i]?)
      (rule.document texts endings) := by
  have hstarts : (startsFrom 0 texts endings).length = (rule.shapes texts .null none).length := by
    simp
  have hshapes : (rule.document texts endings).lines.map Line.shape = rule.shapes texts .null none :=
    map_shape_zipWith_lineAt hstarts
  have hplaced : (rule.document texts endings).lines.map Line.start = startsFrom 0 texts endings :=
    map_start_zipWith_lineAt hstarts
  refine ⟨rfl, ?_, ?_, ?_⟩
  · rw [hshapes]
    exact ht.shapes_usable hroom ⟨_, ht.reset hs⟩ .null
  · rw [hshapes]
    exact rule.coherent_shapes hlen .null none
  · intro j hj
    have htake : texts.take j = texts'.take j := by
      apply List.ext_getElem?
      intro i
      rw [List.getElem?_take, List.getElem?_take]
      split
      next hi => exact not_not.1 (hj i hi)
      next => rfl
    rw [hplaced, getElem?_startsFrom, getElem?_startsFrom, hlen, htake]

/-- The lines have room where the new texts put them, as there is room for both kinds of texts. -/
theorem hasRoom_of_add_lt {n : Nat} {texts texts' : List String} {endings : List Nat}
    (hlen : texts'.length = texts.length)
    (hfit : n + (texts.map fun text => Text.size text.toList).sum + extent texts' endings <
      UInt64.size) : List.Forall₂ HasRoom texts (startsFrom n texts' endings) := by
  induction texts' generalizing n texts endings with
  | nil =>
    obtain rfl := List.length_eq_zero_iff.1 hlen.symm
    exact .nil
  | cons text' texts' ih =>
    cases texts with
    | nil => cases hlen
    | cons text texts =>
      simp only [List.map_cons, List.sum_cons, extent_cons] at hfit
      have hstart : (UInt64.ofNat n).toNat = n := UInt64.toNat_ofNat_of_lt' (by omega)
      refine .cons ?_ (ih (Nat.succ.inj hlen) (by omega))
      unfold HasRoom
      rw [hstart]
      omega

/-- Updates of lines in any order have a result, and when no changed line is left out it is what a
build from the new texts gives. All this is for tokenizers that are local to the line, such as the
steady ones are. -/
theorem updates_eq_build :
    (∀ i : Instance, i.Steady →
      ∃ rule, LineLocal Traced.tokenizer (fun s => s.current.fresh = i.fresh) rule) ∧
    ∀ {σ : Type} {t : Tokenizer σ} {states : σ → Prop} {rule : Rule}, LineLocal t states rule →
      ∀ {texts texts' : List String} {endings : List Nat}, texts'.length = texts.length →
        endings.length = texts.length →
        (texts.map fun text => Text.size text.toList).sum +
          (texts'.map fun text => Text.size text.toList).sum + endings.sum < UInt64.size →
        ∀ {s₀ s₁ : σ} {d : Document}, states s₀ →
          Document.build t texts endings s₀ = .ok (d, s₁) →
          ∀ {indices : List Nat}, (∀ i ∈ indices, i < texts.length) → ∀ {s : σ}, states s →
            ∃ d' s', Document.updates t texts' indices d s = .ok (d', s') ∧
              ((∀ i, texts[i]? ≠ texts'[i]? → i ∈ indices) → ∀ {s₂ : σ}, states s₂ →
                ∃ s₃, Document.build t texts' endings s₂ = .ok (d', s₃)) := by
  refine ⟨fun i hi => hi.exists_lineLocal, ?_⟩
  intro σ t states rule ht texts texts' endings hlen hendings hsum s₀ s₁ d hs₀ hbuild indices
    hindices s hs
  have hextent := extent_eq_sum hendings
  have hextent' := extent_eq_sum (hendings.trans hlen.symm)
  have hfit : extent texts endings < UInt64.size := by omega
  have hfit' : extent texts' endings < UInt64.size := by omega
  obtain ⟨s₁', -, hrun⟩ := ht.build_eq hfit hs₀
  obtain ⟨rfl, -⟩ : d = rule.document texts endings ∧ s₁ = s₁' := by
    simpa [hbuild] using hrun
  have hroom : List.Forall₂ HasRoom texts (startsFrom 0 texts' endings) :=
    hasRoom_of_add_lt hlen (by omega)
  have hstart := ht.upToDate_document hlen hroom hs₀
  rw [← hlen] at hindices
  obtain ⟨d', s', hupdates, -, hdone⟩ := hstart.updates ht hfit' hindices hs
  refine ⟨d', s', hupdates, ?_⟩
  intro hall s₂ hs₂
  obtain ⟨s₃, -, hrebuild⟩ := ht.build_eq hfit' hs₂
  have hnone : UpToDate t states rule texts' endings (fun _ => False) d' := by
    apply hdone.mono
    rintro i ⟨hmem, hchanged⟩
    exact hmem (hall i hchanged)
  exact ⟨s₃, by rw [hrebuild, hnone.eq_document]⟩

theorem updates_eq_build_parens :
    let s : Traced := .start (Grammar.Parens.tokenizer "parens" 0)
    ∃ d s₁ d' s' s₂, Document.build Traced.tokenizer ["(", "a", ")"] [1, 2, 0] s = .ok (d, s₁) ∧
      Document.updates Traced.tokenizer ["((", "a", "b"] [2, 0] d s₁ = .ok (d', s') ∧
      Document.build Traced.tokenizer ["((", "a", "b"] [1, 2, 0] s = .ok (d', s₂) ∧
      d'.lines.map Line.context = [some (.nesting 2), some (.nesting 2), some (.nesting 2)] := by
  intro s
  obtain ⟨rule, ht⟩ := updates_eq_build.1 _ (Grammar.Parens.tokenizer_steady "parens" 0)
  have hs : s.current.fresh = (Grammar.Parens.tokenizer "parens" 0).fresh := rfl
  have hfit : extent ["(", "a", ")"] [1, 2, 0] < UInt64.size := by decide
  obtain ⟨s₁, hs₁, hbuild⟩ := ht.build_eq hfit hs
  have hlen : ["((", "a", "b"].length = ["(", "a", ")"].length := rfl
  have hindices : ∀ i ∈ [2, 0], i < ["(", "a", ")"].length := by decide
  have hchanged : ∀ i, ["(", "a", ")"][i]? ≠ ["((", "a", "b"][i]? → i ∈ [2, 0] := by
    intro i hi
    match i with
    | 0 => decide
    | 1 => exact absurd rfl hi
    | 2 => decide
    | i + 3 => exact absurd rfl hi
  obtain ⟨d', s', hrun, hdone⟩ :=
    updates_eq_build.2 ht hlen rfl (by decide) hs hbuild hindices hs₁
  obtain ⟨s₂, hrebuild⟩ := hdone hchanged hs
  refine ⟨_, s₁, d', s', s₂, hbuild, hrun, hrebuild, ?_⟩
  have hcontexts : (Document.build Traced.tokenizer ["((", "a", "b"] [1, 2, 0] s).map
      (fun p => p.1.lines.map Line.context) = .ok (List.replicate 3 (some (.nesting 2))) := rfl
  rw [hrebuild] at hcontexts
  exact Except.ok.inj hcontexts

namespace Document

variable {d : Document} {texts : List String} {index : Nat}

theorem update_eq_self (h : texts.length ≤ index) (s : σ) : d.update t texts index s = .ok (d, s) :=
  if_pos h

theorem update_eq_ofLines (hindex : index < texts.length) (hcount : d.lines.length ≠ texts.length)
    (s : σ) : d.update t texts index s = ofLines t texts s := by
  rw [update, if_neg (Nat.not_le.2 hindex), if_pos hcount]

/-- With another number of lines an update comes to the same as a document made from the new lines
exactly if the index is that of one of them. Otherwise all the old lines are still there. -/
theorem update_eq_ofLines_iff (hcount : d.lines.length ≠ texts.length) (index : Nat) (s : σ) :
    (d.update t texts index s = ofLines t texts s ↔ index < texts.length) ∧
      (∀ {d' s'}, ofLines t texts s = .ok (d', s') → d'.lines.length = texts.length) ∧
      (texts.length ≤ index → d.update t texts index s = .ok (d, s)) := by
  refine ⟨⟨fun heq => ?_, fun hindex => update_eq_ofLines hindex hcount s⟩, length_lines_build,
    fun h => update_eq_self h s⟩
  rcases Nat.lt_or_ge index texts.length with hindex | hindex
  · exact hindex
  · rw [update_eq_self hindex] at heq
    exact absurd (length_lines_build heq.symm) hcount

theorem update_eq_ofLines_iff_plain :
    let s : Traced := .start (.plain .new)
    ∃ d s₁ d' s₂, ofLines Traced.tokenizer ["a", "b"] s = .ok (d, s₁) ∧
      d.lines.length ≠ ["ab"].length ∧ d.update Traced.tokenizer ["ab"] 0 s₁ = .ok (d', s₂) ∧
      ofLines Traced.tokenizer ["ab"] s₁ = .ok (d', s₂) ∧ d'.lines.length = 1 := by
  intro s
  obtain ⟨d, s₁, d', s₂, hbuild, hrebuild, hlen⟩ : ∃ d s₁ d' s₂,
      ofLines Traced.tokenizer ["a", "b"] s = .ok (d, s₁) ∧
      ofLines Traced.tokenizer ["ab"] s₁ = .ok (d', s₂) ∧ d.lines.length = 2 :=
    ⟨_, _, _, _, rfl, rfl, rfl⟩
  have hcount : d.lines.length ≠ ["ab"].length := by rw [hlen]; decide
  obtain ⟨hiff, hall, -⟩ := update_eq_ofLines_iff (t := Traced.tokenizer) hcount 0 s₁
  have hupdate := (hiff.2 Nat.zero_lt_one).trans hrebuild
  exact ⟨d, s₁, d', s₂, hbuild, hcount, hupdate, hrebuild, hall hrebuild⟩

/-- The last line is taken out, and it is still there after the update. -/
theorem update_ne_ofLines_plain :
    let s : Traced := .start (.plain .new)
    ∃ d s₁ d' s₂, ofLines Traced.tokenizer ["a", "b"] s = .ok (d, s₁) ∧
      d.update Traced.tokenizer ["a"] 1 s₁ = .ok (d, s₁) ∧
      ofLines Traced.tokenizer ["a"] s₁ = .ok (d', s₂) ∧ d.lines.length = 2 ∧ d'.lines.length = 1 :=
  ⟨_, _, _, _, rfl, rfl, rfl, rfl, rfl⟩

end Document
end Linewise
