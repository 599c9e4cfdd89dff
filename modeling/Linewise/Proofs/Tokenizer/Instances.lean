import Linewise.Instance
import Linewise.Proofs.Tokenizer.Calls
import Linewise.Proofs.Tokenizer.Locality

/-! The tokenizers that do not depend on where a line is: the plain one, an engine without a grammar,
and an engine whose grammar makes its calls by the text, the kind and the context alone. -/
namespace Linewise

/-- What the grammar does on a line is decided by `calls`, and stays inside of the line. -/
structure Grammar.Steady (g : Grammar) (languageIndex : UInt32)
    (calls : String → Kind → Option Context → List Call) : Prop where
  calls_eq : ∀ {segment : Segment} {text : String} (kind : Kind) {offset : Offset}
    (context : Option Context), segment.Shows text → offset.toNat + segment.size < UInt64.size →
      (g.emit segment kind offset).calls
        ⟨.openAt offset, segment.size, languageIndex, context, false⟩ = calls text kind context
  within : ∀ (text : String) (kind : Kind) (context : Option Context),
    ∀ call ∈ calls text kind context, call.Within (Text.size text.toList)

/-- One token over the whole of a line of `size` bytes, none if there is nothing to cover. -/
def wholeLine (size : Nat) (kind : Kind) : List Token :=
  if size = 0 then [] else [⟨kind, ⟨0, .ofNat size⟩, none⟩]

theorem wholeLine_fits {size : Nat} (hsize : size < UInt64.size) (kind continuation : Kind)
    (context : Option Context) :
    (Shape.mk (wholeLine size kind) continuation context).Fits size := by
  intro t ht
  unfold wholeLine at ht
  split at ht
  next => cases ht
  next =>
    obtain rfl := List.mem_singleton.1 ht
    have hstop : (UInt64.ofNat size).toNat = size := UInt64.toNat_ofNat_of_lt' hsize
    refine ⟨UInt64.le_iff_toNat_le.2 (Nat.zero_le _), ?_⟩
    exact Nat.le_of_eq hstop

namespace Rule

def plain : Rule := fun text _ _ => ⟨wholeLine (Text.size text.toList) .text, .null, none⟩

def whole : Rule := fun text kind context => ⟨wholeLine (Text.size text.toList) kind, kind, context⟩

def ofCalls (calls : String → Kind → Option Context → List Call) : Rule :=
  fun text kind context => Call.shape (calls text kind context) kind context

end Rule

theorem Offset.eq_add_of_advance {offset stop : Offset} {n : Nat}
    (h : offset.advance n = .ok stop) : stop = .ofNat n + offset := by
  obtain ⟨hfit, hval⟩ := Offset.advance_eq_ok_iff.1 h
  apply UInt64.toNat_inj.1
  rw [UInt64.toNat_add, UInt64.toNat_ofNat_of_lt' (by omega), hval, Nat.add_comm]
  rw [Nat.add_comm] at hfit
  exact (Nat.mod_eq_of_lt hfit).symm

theorem relativeTo_wholeLine {segment : Segment} {text : String} (h : segment.Shows text)
    {offset stop : Offset} (hstop : offset.advance segment.size = .ok stop) (kind : Kind) :
    (if segment.isEmpty then [] else [⟨kind, ⟨offset, stop⟩, none⟩] : List Token).map
      (fun t => t.relativeTo offset) = wholeLine (Text.size text.toList) kind := by
  rw [h.isEmpty_eq, wholeLine]
  by_cases hzero : Text.size text.toList = 0
  · simp [hzero]
  · have hdiff : stop - offset = .ofNat (Text.size text.toList) := by
      rw [Offset.eq_add_of_advance hstop, h.size_eq, UInt64.add_sub_cancel]
    simp [hzero, Token.relativeTo, Span.relativeTo, hdiff]

namespace Instance

/-- The tokenizer as it was before its first line. -/
def fresh : Instance → Instance
  | .plain _ => .plain .new
  | .engine e => .engine (.new e.grammar e.languageIndex)
  | .table t _ => .table t .empty

@[simp] theorem fresh_fresh (i : Instance) : i.fresh.fresh = i.fresh := by
  cases i <;> rfl

theorem fresh_analyze {i j : Instance} {segment : Segment} {kind : Kind} {offset : Offset}
    {signals : List Signal} (h : i.analyze segment kind offset = .ok (j, signals)) :
    j.fresh = i.fresh := by
  cases i with
  | plain p =>
    simp only [analyze, bind_eq_ok_iff, pure_eq_ok_iff, Prod.mk.injEq] at h
    obtain ⟨p', -, rfl, -⟩ := h
    rfl
  | engine e =>
    simp only [analyze, bind_eq_ok_iff, pure_eq_ok_iff, Prod.mk.injEq] at h
    obtain ⟨⟨e', signals'⟩, hrun, rfl, -⟩ := h
    simp only [Engine.analyze, bind_eq_ok_iff] at hrun
    obtain ⟨stop, -, hrun⟩ := hrun
    split at hrun
    next =>
      obtain rfl := congrArg Prod.fst (pure_eq_ok_iff.1 hrun)
      rfl
    next grammar hgrammar =>
      obtain ⟨⟨out, notes⟩, -, hrun⟩ := bind_eq_ok_iff.1 hrun
      obtain rfl := congrArg Prod.fst (pure_eq_ok_iff.1 hrun)
      rfl
  | table t row =>
    simp only [analyze, Except.ok.injEq, Prod.mk.injEq] at h
    obtain ⟨rfl, -⟩ := h
    rfl

@[simp] theorem fresh_setContext (context : Option Context) (i : Instance) :
    (i.setContext context).1.fresh = i.fresh := by
  cases i <;> rfl

@[simp] theorem fresh_takeContext (i : Instance) : i.takeContext.2.fresh = i.fresh := by
  cases i <;> rfl

/-- Where a line is means nothing to the tokenizer. -/
def Steady : Instance → Prop
  | .plain _ => True
  | .engine e => ∀ g, e.grammar = some g → ∃ calls, g.Steady e.languageIndex calls
  | .table _ _ => False

end Instance

theorem Offset.exists_advance {offset : Offset} {n : Nat} (h : offset.toNat + n < UInt64.size) :
    ∃ stop, offset.advance n = .ok stop :=
  ⟨.ofNat (offset.toNat + n), Offset.advance_eq_ok_iff.2 ⟨h, UInt64.toNat_ofNat_of_lt' h⟩⟩

theorem Plain.analyze_shape {segment : Segment} {text : String} (h : segment.Shows text)
    {offset : Offset} (hfit : offset.toNat + segment.size < UInt64.size) :
    ∃ p, Plain.analyze segment offset = .ok p ∧ (Line.ofRow p.row none offset).shape =
      ⟨wholeLine (Text.size text.toList) .text, .null, none⟩ := by
  obtain ⟨stop, hstop⟩ := Offset.exists_advance hfit
  refine ⟨_, by rw [Plain.analyze, hstop]; rfl, ?_⟩
  rw [← relativeTo_wholeLine h hstop]
  rfl

namespace Engine

theorem analyze_shape_of_none {e : Engine} (hg : e.grammar = none) {segment : Segment}
    {text : String} (h : segment.Shows text) (kind : Kind) {offset : Offset}
    (hfit : offset.toNat + segment.size < UInt64.size) :
    ∃ e' signals, e.analyze segment kind offset = .ok (e', signals) ∧
      (Line.ofRow e'.row e'.context offset).shape =
        ⟨wholeLine (Text.size text.toList) kind, kind, e.context⟩ := by
  obtain ⟨stop, hstop⟩ := Offset.exists_advance hfit
  refine ⟨_, _, by rw [analyze, hstop, hg]; rfl, ?_⟩
  rw [← relativeTo_wholeLine h hstop]
  rfl

theorem analyze_eq_of_calls {e : Engine} {g : Grammar} (hg : e.grammar = some g)
    {segment : Segment} {kind : Kind} {offset stop : Offset}
    (hstop : offset.advance segment.size = .ok stop) {out : Emitter}
    (hcalls : Call.applyAll ((g.emit segment kind offset).calls (e.emitter segment offset))
      (e.emitter segment offset) = .ok out) :
    ∃ signals, e.analyze segment kind offset =
      .ok ({ e with context := out.context, row := out.close stop kind }, signals) := by
  obtain ⟨notes, hrun⟩ := Emission.exists_run_eq_ok_iff.2 hcalls
  refine ⟨.logged (.analysis e.languageIndex segment.size) :: .entered :: notes.map .observed, ?_⟩
  unfold analyze
  rw [hstop, hg]
  simp only [bind, Except.bind, hrun]
  rfl

theorem analyze_shape_of_some {e : Engine} {g : Grammar} (hg : e.grammar = some g)
    {calls : String → Kind → Option Context → List Call} (hsteady : g.Steady e.languageIndex calls)
    {segment : Segment} {text : String} (h : segment.Shows text) (kind : Kind) {offset : Offset}
    (hfit : offset.toNat + segment.size < UInt64.size) :
    ∃ e' signals, e.analyze segment kind offset = .ok (e', signals) ∧
      (Line.ofRow e'.row e'.context offset).shape =
        Call.shape (calls text kind e.context) kind e.context := by
  obtain ⟨stop, hstop⟩ := Offset.exists_advance hfit
  have hwithin := hsteady.within text kind e.context
  rw [← h.size_eq] at hwithin
  have hcalls := hsteady.calls_eq kind e.context h hfit
  have hafter : Call.applyAll (calls text kind e.context) (e.emitter segment offset) =
      .ok ((e.emitter segment offset).after (calls text kind e.context)) :=
    Call.applyAll_eq_after hwithin hfit
  obtain ⟨signals, hrun⟩ := analyze_eq_of_calls hg hstop (by rw [emitter, hcalls]; exact hafter)
  refine ⟨_, signals, hrun, ?_⟩
  generalize calls text kind e.context = cs
  unfold Call.shape
  generalize htokens : cs.filterMap Call.token? = ts
  cases hnull : cs.foldl Call.nullAfter false <;>
    simp [Emitter.after, Emitter.close, emitter, Line.ofRow, Line.shape, hnull, htokens,
      Line.relativeTokens, Row.openAt, Emitter.lineStart, Function.comp_def]

end Engine

namespace Instance

theorem fresh_engine_eq_iff {e e' : Engine} : (engine e).fresh = (engine e').fresh ↔
    e.grammar = e'.grammar ∧ e.languageIndex = e'.languageIndex := by
  simp [fresh, Engine.new]

theorem eq_plain_of_fresh {i : Instance} {p : Plain} (h : i.fresh = (plain p).fresh) :
    ∃ q, i = plain q := by
  cases i with
  | plain q => exact ⟨q, rfl⟩
  | engine e => cases h
  | table t row => cases h

theorem eq_engine_of_fresh {i : Instance} {e : Engine} (h : i.fresh = (engine e).fresh) :
    ∃ e', i = engine e' ∧ e'.grammar = e.grammar ∧ e'.languageIndex = e.languageIndex := by
  cases i with
  | plain q => cases h
  | engine e' => exact ⟨e', rfl, fresh_engine_eq_iff.1 h⟩
  | table t row => cases h

@[simp] theorem context_setContext_none (i : Instance) : (i.setContext none).1.context = none := by
  cases i <;> rfl

theorem context_setContext_of_fresh {i j : Instance} (h : i.fresh = j.fresh) :
    (i.setContext j.context).1.context = j.context := by
  cases i <;> cases j <;> first | rfl | cases h

theorem lineLocal_of_analyze {i : Instance} {rule : Rule}
    (hanalyze : ∀ {j : Instance} {segment : Segment} {text : String} (kind : Kind) {offset : Offset},
      j.fresh = i.fresh → segment.Shows text → offset.toNat + segment.size < UInt64.size →
        ∃ j' signals, j.analyze segment kind offset = .ok (j', signals) ∧
          (Line.ofRow j'.row j'.context offset).shape = rule text kind j.context)
    (hfits : ∀ {text : String} (kind : Kind) (context : Option Context),
      Text.size text.toList < UInt64.size → (rule text kind context).Fits (Text.size text.toList)) :
    LineLocal Traced.tokenizer (fun s => s.current.fresh = i.fresh) rule where
  analyze := by
    intro s segment text kind offset hs hshows hfit
    obtain ⟨j, signals, hrun, hshape⟩ := hanalyze kind hs hshows hfit
    refine ⟨j.row, ⟨j, s.signals ++ signals⟩, ?_, (fresh_analyze hrun).trans hs, hshape⟩
    exact bind_eq_ok_iff.2 ⟨_, hrun, rfl⟩
  fits := hfits
  reset := by
    intro s hs
    exact ⟨(fresh_setContext none s.current).trans hs, context_setContext_none s.current⟩
  restore := by
    intro s s' hs hs'
    exact ⟨(fresh_setContext s'.current.context s.current).trans hs,
      context_setContext_of_fresh (hs.trans hs'.symm)⟩

theorem lineLocal_plain (p : Plain) :
    LineLocal Traced.tokenizer (fun s => s.current.fresh = (plain p).fresh) Rule.plain := by
  refine lineLocal_of_analyze ?_ fun kind context hsize => wholeLine_fits hsize .text .null none
  intro j segment text kind offset hj hshows hfit
  obtain ⟨q, rfl⟩ := eq_plain_of_fresh hj
  obtain ⟨p', hrun, hshape⟩ := Plain.analyze_shape hshows hfit
  exact ⟨.plain p', [], bind_eq_ok_iff.2 ⟨p', hrun, rfl⟩, hshape⟩

theorem lineLocal_of_none {e : Engine} (hgrammar : e.grammar = none) :
    LineLocal Traced.tokenizer (fun s => s.current.fresh = (engine e).fresh) Rule.whole := by
  refine lineLocal_of_analyze ?_ fun kind context hsize => wholeLine_fits hsize kind kind context
  intro j segment text kind offset hj hshows hfit
  obtain ⟨e₀, rfl, heq, -⟩ := eq_engine_of_fresh hj
  obtain ⟨e', signals, hrun, hshape⟩ :=
    Engine.analyze_shape_of_none (heq.trans hgrammar) hshows kind hfit
  exact ⟨.engine e', signals, bind_eq_ok_iff.2 ⟨_, hrun, rfl⟩, hshape⟩

theorem lineLocal_of_some {e : Engine} {g : Grammar} (hgrammar : e.grammar = some g)
    {calls : String → Kind → Option Context → List Call} (hsteady : g.Steady e.languageIndex calls) :
    LineLocal Traced.tokenizer (fun s => s.current.fresh = (engine e).fresh) (Rule.ofCalls calls) := by
  refine lineLocal_of_analyze ?_ fun kind context hsize =>
    Call.shape_fits (hsteady.within _ kind context) hsize kind context
  intro j segment text kind offset hj hshows hfit
  obtain ⟨e₀, rfl, heq, hindex⟩ := eq_engine_of_fresh hj
  rw [← hindex] at hsteady
  obtain ⟨e', signals, hrun, hshape⟩ :=
    Engine.analyze_shape_of_some (heq.trans hgrammar) hsteady hshows kind hfit
  exact ⟨.engine e', signals, bind_eq_ok_iff.2 ⟨_, hrun, rfl⟩, hshape⟩

theorem Steady.exists_lineLocal {i : Instance} (h : i.Steady) :
    ∃ rule, LineLocal Traced.tokenizer (fun s => s.current.fresh = i.fresh) rule := by
  cases i with
  | plain p => exact ⟨_, lineLocal_plain p⟩
  | engine e =>
    cases hgrammar : e.grammar with
    | none => exact ⟨_, lineLocal_of_none hgrammar⟩
    | some g =>
      obtain ⟨calls, hsteady⟩ := h g hgrammar
      exact ⟨_, lineLocal_of_some hgrammar hsteady⟩
  | table t row => exact h.elim

end Instance
end Linewise
