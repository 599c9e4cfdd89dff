import Linewise.Document

/-! Two tokenizers side by side, one of which mirrors the other line by line. Then it does so over whole
documents as well, from the state in which the context has been set. -/
namespace Linewise

variable {σ τ α : Type}

/-- Where the first operation has a result the second has the same one from every state that `before`
relates, and `after` relates the states that they end in. -/
def Mirrors (before after : σ → τ → Prop) (operation : σ → Except Fault (α × σ))
    (mirrored : τ → Except Fault (α × τ)) : Prop :=
  ∀ ⦃s : σ⦄ ⦃s' : τ⦄ ⦃a : α⦄ ⦃s₁ : σ⦄, before s s' → operation s = .ok (a, s₁) →
    ∃ s₁', mirrored s' = .ok (a, s₁') ∧ after s₁ s₁'

structure Mirror (t : Tokenizer σ) (u : Tokenizer τ) (related : σ → τ → Prop) : Prop where
  analyze : ∀ segment kind offset,
    Mirrors related related (t.analyze segment kind offset) (u.analyze segment kind offset)
  context : ∀ {s : σ} {s' : τ}, related s s' → t.context s = u.context s'

def Tokenizer.tell (t : Tokenizer σ) (told? : Option (Option Context)) (s : σ) : σ :=
  match told? with
  | some context => t.setContext context s
  | none => s

namespace Document

/-- The context that an update sets before it analyzes a line: that of the line before, or none where
the analysis starts over. An update that has nothing to do sets no context. -/
def restart? (d : Document) (texts : List String) (index : Nat) : Option (Option Context) :=
  if texts.length ≤ index then none
  else if d.lines.length ≠ texts.length then some none
  else
    match index with
    | 0 => some none
    | previous + 1 => d.lines[previous]?.map Line.context

variable {d : Document} {texts : List String} {index : Nat}

theorem restart?_eq_none (hpast : texts.length ≤ index) : d.restart? texts index = none :=
  if_pos hpast

theorem restart?_of_length_ne (hpast : ¬ texts.length ≤ index)
    (hlen : d.lines.length ≠ texts.length) : d.restart? texts index = some none := by
  unfold restart?
  rw [if_neg hpast, if_pos hlen]

theorem restart?_of_length_eq (hpast : ¬ texts.length ≤ index)
    (hlen : ¬ d.lines.length ≠ texts.length) :
    d.restart? texts index = some (d.continuationBefore index).2 := by
  unfold restart?
  rw [if_neg hpast, if_neg hlen]
  cases index with
  | zero => rfl
  | succ previous =>
    have hprevious : previous < d.lines.length := by omega
    simp only [continuationBefore, List.getElem?_eq_getElem hprevious, Option.map_some]

theorem exists_restart?_eq (hpast : ¬ texts.length ≤ index) :
    ∃ context, d.restart? texts index = some context := by
  by_cases hlen : d.lines.length ≠ texts.length
  · exact ⟨_, restart?_of_length_ne hpast hlen⟩
  · exact ⟨_, restart?_of_length_eq hpast hlen⟩

end Document

namespace Mirror

variable {t : Tokenizer σ} {u : Tokenizer τ} {related : σ → τ → Prop}

theorem line (h : Mirror t u related) (text : String) (start : Offset) (kind : Kind) :
    Mirrors related related (t.line text start kind) (u.line text start kind) := by
  intro s s' line s₁ hs hrun
  obtain ⟨⟨row, s₂⟩, hanalyze, hline⟩ := bind_eq_ok_iff.1 hrun
  obtain ⟨rfl, rfl⟩ := Prod.mk.inj (pure_eq_ok_iff.1 hline)
  obtain ⟨s₂', hanalyze', h₂⟩ := h.analyze _ _ _ hs hanalyze
  refine ⟨s₂', bind_eq_ok_iff.2 ⟨_, hanalyze', ?_⟩, h₂⟩
  simp only [h.context h₂]
  rfl

theorem lines (h : Mirror t u related) (rest : List (String × Offset)) (kind : Kind) :
    Mirrors related related (t.lines rest kind) (u.lines rest kind) := by
  induction rest generalizing kind with
  | nil =>
    intro s s' lines s₁ hs hrun
    obtain ⟨rfl, rfl⟩ := Prod.mk.inj (Except.ok.inj hrun)
    exact ⟨s', rfl, hs⟩
  | cons first rest ih =>
    intro s s' lines s₁ hs hrun
    obtain ⟨⟨line, s₂⟩, hline, hrun⟩ := bind_eq_ok_iff.1 hrun
    obtain ⟨⟨others, s₃⟩, hlines, hrun⟩ := bind_eq_ok_iff.1 hrun
    obtain ⟨rfl, rfl⟩ := Prod.mk.inj (pure_eq_ok_iff.1 hrun)
    obtain ⟨s₂', hline', h₂⟩ := h.line _ _ _ hs hline
    obtain ⟨s₃', hlines', h₃⟩ := ih _ h₂ hlines
    exact ⟨s₃', bind_eq_ok_iff.2 ⟨_, hline', bind_eq_ok_iff.2 ⟨_, hlines', rfl⟩⟩, h₃⟩

theorem tokenizeSegments (h : Mirror t u related) (segments : List Segment) (kind : Kind) :
    Mirrors related related (t.tokenizeSegments segments kind) (u.tokenizeSegments segments kind) := by
  induction segments generalizing kind with
  | nil =>
    intro s s' tokens s₁ hs hrun
    obtain ⟨rfl, rfl⟩ := Prod.mk.inj (Except.ok.inj hrun)
    exact ⟨s', rfl, hs⟩
  | cons segment segments ih =>
    intro s s' tokens s₁ hs hrun
    obtain ⟨⟨row, s₂⟩, hrow, hrun⟩ := bind_eq_ok_iff.1 hrun
    obtain ⟨⟨others, s₃⟩, htokens, hrun⟩ := bind_eq_ok_iff.1 hrun
    obtain ⟨rfl, rfl⟩ := Prod.mk.inj (pure_eq_ok_iff.1 hrun)
    obtain ⟨s₂', hrow', h₂⟩ := h.analyze _ _ _ hs hrow
    obtain ⟨s₃', htokens', h₃⟩ := ih _ h₂ htokens
    exact ⟨s₃', bind_eq_ok_iff.2 ⟨_, hrow', bind_eq_ok_iff.2 ⟨_, htokens', rfl⟩⟩, h₃⟩

theorem settle (h : Mirror t u related) (slots : List Document.Slot) (kind : Kind) :
    Mirrors related related (Document.settle t slots kind) (Document.settle u slots kind) := by
  induction slots generalizing kind with
  | nil =>
    intro s s' lines s₁ hs hrun
    obtain ⟨rfl, rfl⟩ := Prod.mk.inj (Except.ok.inj hrun)
    exact ⟨s', rfl, hs⟩
  | cons slot slots ih =>
    intro s s' lines s₁ hs hrun
    obtain ⟨⟨line, s₂⟩, hline, hrun⟩ := bind_eq_ok_iff.1 hrun
    obtain ⟨s₂', hline', h₂⟩ := h.line _ _ _ hs hline
    dsimp only at hrun
    split at hrun
    next hkept =>
      obtain ⟨rebased, hrebase, hrun⟩ := bind_eq_ok_iff.1 hrun
      obtain ⟨rfl, rfl⟩ := Prod.mk.inj (pure_eq_ok_iff.1 hrun)
      refine ⟨s₂', bind_eq_ok_iff.2 ⟨_, hline', ?_⟩, h₂⟩
      exact (if_pos hkept).trans (bind_eq_ok_iff.2 ⟨_, hrebase, rfl⟩)
    next hchanged =>
      obtain ⟨⟨others, s₃⟩, hsettled, hrun⟩ := bind_eq_ok_iff.1 hrun
      obtain ⟨rfl, rfl⟩ := Prod.mk.inj (pure_eq_ok_iff.1 hrun)
      obtain ⟨s₃', hsettled', h₃⟩ := ih _ h₂ hsettled
      refine ⟨s₃', bind_eq_ok_iff.2 ⟨_, hline', ?_⟩, h₃⟩
      exact (if_neg hchanged).trans (bind_eq_ok_iff.2 ⟨_, hsettled', rfl⟩)

/-- It takes related states once the context has been set, as it is before all else. -/
theorem tokenize (h : Mirror t u related) (text : String) :
    Mirrors (fun s s' => related (t.setContext none s) (u.setContext none s')) related
      (t.tokenize text) (u.tokenize text) := by
  intro s s' tokens s₁ hs hrun
  exact h.tokenizeSegments _ _ hs hrun

theorem build (h : Mirror t u related) (texts : List String) (endings : List Nat) :
    Mirrors (fun s s' => related (t.setContext none s) (u.setContext none s')) related
      (Document.build t texts endings) (Document.build u texts endings) := by
  intro s s' d s₁ hs hrun
  obtain ⟨starts, hstarts, hrun⟩ := bind_eq_ok_iff.1 hrun
  obtain ⟨⟨lines, s₂⟩, hlines, hrun⟩ := bind_eq_ok_iff.1 hrun
  obtain ⟨rfl, rfl⟩ := Prod.mk.inj (pure_eq_ok_iff.1 hrun)
  obtain ⟨s₂', hlines', h₂⟩ := h.lines _ _ hs hlines
  exact ⟨s₂', bind_eq_ok_iff.2 ⟨_, hstarts, bind_eq_ok_iff.2 ⟨_, hlines', rfl⟩⟩, h₂⟩

theorem update (h : Mirror t u related) (d : Document) (texts : List String) (index : Nat) :
    Mirrors (fun s s' => related (t.tell (d.restart? texts index) s)
        (u.tell (d.restart? texts index) s')) related
      (d.update t texts index) (d.update u texts index) := by
  intro s s' d' s₁ hs hrun
  unfold Document.update at hrun ⊢
  split at hrun
  next hpast =>
    rw [Document.restart?_eq_none hpast] at hs
    obtain ⟨rfl, rfl⟩ := Prod.mk.inj (Except.ok.inj hrun)
    exact ⟨s', if_pos hpast, hs⟩
  next hpast =>
    split at hrun
    next hlen =>
      rw [Document.restart?_of_length_ne hpast hlen] at hs
      obtain ⟨s₁', hbuild, h₁⟩ := h.build _ _ hs hrun
      exact ⟨s₁', (if_neg hpast).trans ((if_pos hlen).trans hbuild), h₁⟩
    next hlen =>
      rw [Document.restart?_of_length_eq hpast hlen] at hs
      obtain ⟨starts, hstarts, hrun⟩ := bind_eq_ok_iff.1 hrun
      obtain ⟨⟨settled, s₂⟩, hsettled, hrun⟩ := bind_eq_ok_iff.1 hrun
      obtain ⟨rfl, rfl⟩ := Prod.mk.inj (pure_eq_ok_iff.1 hrun)
      obtain ⟨s₂', hsettled', h₂⟩ := h.settle _ _ hs hsettled
      refine ⟨s₂', (if_neg hpast).trans ((if_neg hlen).trans ?_), h₂⟩
      exact bind_eq_ok_iff.2 ⟨_, hstarts, bind_eq_ok_iff.2 ⟨_, hsettled', rfl⟩⟩

end Mirror
end Linewise
