import Linewise.Proofs.Tokenizer.Instances
import Linewise.Proofs.Tokenizer.Mirroring

/-! Two runs of a tokenizer side by side. All that is done with documents and whole texts sets the
context before the first line is analyzed, so it does not matter what the tokenizer did before. -/
namespace Linewise

variable {σ α : Type}

def Agrees (before after : σ → σ → Prop) (operation : σ → Except Fault (α × σ)) : Prop :=
  ∀ ⦃s s' : σ⦄ ⦃a : α⦄ ⦃s₁ : σ⦄, before s s' → operation s = .ok (a, s₁) →
    ∃ s₁', operation s' = .ok (a, s₁') ∧ after s₁ s₁'

/-- The relation `same` allows for no difference that an analysis can notice, and states that are only
`alike` become the same when a context is set. -/
structure Resets (t : Tokenizer σ) (alike same : σ → σ → Prop) : Prop where
  analyze : ∀ segment kind offset, Agrees same same (t.analyze segment kind offset)
  context : ∀ {s s' : σ}, same s s' → t.context s = t.context s'
  setContext : ∀ (context : Option Context) {s s' : σ}, alike s s' →
    same (t.setContext context s) (t.setContext context s')
  alike_of_same : ∀ {s s' : σ}, same s s' → alike s s'

namespace Resets

variable {t : Tokenizer σ} {alike same : σ → σ → Prop}

theorem mirror (ht : Resets t alike same) : Mirror t t same where
  analyze := ht.analyze
  context := ht.context

theorem tokenize (ht : Resets t alike same) (text : String) :
    Agrees alike same (t.tokenize text) := by
  intro s s' tokens s₁ h hrun
  exact ht.mirror.tokenize text (ht.setContext none h) hrun

theorem build (ht : Resets t alike same) (texts : List String) (endings : List Nat) :
    Agrees alike alike (Document.build t texts endings) := by
  intro s s' d s₁ h hrun
  obtain ⟨s₁', hrun', h₁⟩ := ht.mirror.build texts endings (ht.setContext none h) hrun
  exact ⟨s₁', hrun', ht.alike_of_same h₁⟩

theorem ofText (ht : Resets t alike same) (text : String) :
    Agrees alike alike (Document.ofText t text) := ht.build _ _

theorem ofLines (ht : Resets t alike same) (texts : List String) :
    Agrees alike alike (Document.ofLines t texts) := ht.build _ _

theorem update (ht : Resets t alike same) (d : Document) (texts : List String) (index : Nat) :
    Agrees alike alike (d.update t texts index) := by
  intro s s' d' s₁ h hrun
  by_cases hpast : texts.length ≤ index
  · rw [Document.update, if_pos hpast] at hrun
    obtain ⟨rfl, rfl⟩ := Prod.mk.inj (Except.ok.inj hrun)
    exact ⟨s', if_pos hpast, h⟩
  · obtain ⟨context, hrestart⟩ := Document.exists_restart?_eq (d := d) hpast
    have hset : same (t.tell (d.restart? texts index) s) (t.tell (d.restart? texts index) s') := by
      rw [hrestart]
      exact ht.setContext context h
    obtain ⟨s₁', hrun', h₁⟩ := ht.mirror.update d texts index hset hrun
    exact ⟨s₁', hrun', ht.alike_of_same h₁⟩

end Resets

namespace Instance

/-- What the tokenizer did before shows in an analysis through the context only. -/
theorem analyze_congr {i j : Instance} (hfresh : i.fresh = j.fresh) (hcontext : i.context = j.context)
    (segment : Segment) (kind : Kind) (offset : Offset) :
    i.analyze segment kind offset = j.analyze segment kind offset := by
  cases i with
  | plain p =>
    obtain ⟨q, rfl⟩ := eq_plain_of_fresh hfresh.symm
    rfl
  | engine e =>
    obtain ⟨e', rfl, hgrammar, hindex⟩ := eq_engine_of_fresh hfresh.symm
    cases e
    cases e'
    cases hgrammar
    cases hindex
    cases hcontext
    rfl
  | table t row =>
    cases j with
    | plain p => cases hfresh
    | engine e => cases hfresh
    | table t' row' =>
      injection hfresh with ht
      rw [ht]
      rfl

theorem signals_setContext_congr {i j : Instance} (hfresh : i.fresh = j.fresh)
    (context : Option Context) : (i.setContext context).2 = (j.setContext context).2 := by
  cases i with
  | plain p =>
    obtain ⟨q, rfl⟩ := eq_plain_of_fresh hfresh.symm
    rfl
  | engine e =>
    obtain ⟨e', rfl, hgrammar, -⟩ := eq_engine_of_fresh hfresh.symm
    simp only [setContext, Engine.setContext, hgrammar]
  | table t row => cases j <;> first | rfl | cases hfresh

theorem context_setContext_congr {i j : Instance} (hfresh : i.fresh = j.fresh)
    (context : Option Context) :
    (i.setContext context).1.context = (j.setContext context).1.context := by
  cases i <;> cases j <;> first | rfl | cases hfresh

end Instance

namespace Traced

/-- Both tokenizers were made like `i`, and they have signalled the same. -/
structure Alike (i : Instance) (s s' : Traced) : Prop where
  left : s.current.fresh = i.fresh
  right : s'.current.fresh = i.fresh
  signals_eq : s.signals = s'.signals

structure Same (i : Instance) (s s' : Traced) : Prop extends Alike i s s' where
  context_eq : s.current.context = s'.current.context

theorem resets (i : Instance) : Resets tokenizer (Alike i) (Same i) where
  analyze := by
    intro segment kind offset s s' row s₁ h hrun
    obtain ⟨⟨j, signals⟩, hanalyze, hrun⟩ := bind_eq_ok_iff.1 hrun
    obtain ⟨rfl, rfl⟩ := Prod.mk.inj (pure_eq_ok_iff.1 hrun)
    have hfresh := (Instance.fresh_analyze hanalyze).trans h.left
    have hanalyze' := hanalyze
    rw [Instance.analyze_congr (h.left.trans h.right.symm) h.context_eq] at hanalyze'
    exact ⟨⟨j, s'.signals ++ signals⟩, bind_eq_ok_iff.2 ⟨_, hanalyze', rfl⟩,
      ⟨hfresh, hfresh, by rw [h.signals_eq]⟩, rfl⟩
  context h := h.context_eq
  setContext := by
    intro context s s' h
    have hfresh := h.left.trans h.right.symm
    refine ⟨⟨?_, ?_, ?_⟩, Instance.context_setContext_congr hfresh context⟩
    · exact (Instance.fresh_setContext context s.current).trans h.left
    · exact (Instance.fresh_setContext context s'.current).trans h.right
    · exact congrArg₂ _ h.signals_eq (Instance.signals_setContext_congr hfresh context)
  alike_of_same h := h.toAlike

end Traced
end Linewise
