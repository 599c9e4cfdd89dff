import Linewise.Grammar.Script
import Linewise.Proofs.Tokenizer.Instances

/-! One analysis of an engine, told by the calls that its grammar makes. What the engine was left with by
earlier lines has no part in it but for the context, which is where the writes of the grammar start. -/
namespace Linewise

namespace Call

def isToken : Call → Bool
  | .token _ _ _ _ => true
  | .endNull | .setContext _ | .fail _ => false

def written? : Call → Option (Option Context)
  | .setContext context => some context
  | .token _ _ _ _ | .endNull | .fail _ => none

/-- On a line that starts at `start` the call has a result. A token has to be in order and within the
offsets. -/
def Allowed (start : Offset) : Call → Prop
  | .token first last _ _ => first ≤ last ∧ start.toNat + last < UInt64.size
  | .endNull | .setContext _ => True
  | .fail _ => False

instance (start : Offset) : DecidablePred (Allowed start)
  | .token first last _ _ => inferInstanceAs (Decidable (first ≤ last ∧ _))
  | .endNull | .setContext _ => isTrue trivial
  | .fail _ => isFalse id

/-- `t` is the token that the call adds to a line that starts at `start`. -/
def Adds (start : Offset) : Call → Token → Prop
  | .token first last kind nesting, t =>
    t.kind = kind ∧ t.nesting = nesting ∧ t.span.start.toNat = start.toNat + first ∧
      t.span.stop.toNat = start.toNat + last
  | .endNull, _ | .setContext _, _ | .fail _, _ => False

/-- Some null end has no token after it. -/
def EndNull (calls : List Call) : Prop :=
  ∃ before after, calls = before ++ .endNull :: after ∧ ∀ call ∈ after, call.isToken = false

variable {call : Call} {calls : List Call} {e out : Emitter}

/-- Which calls have a result is a matter of the bytes left between the start and the last offset. -/
theorem within_of_allowed {start : Offset} (h : call.Allowed start) :
    call.Within (UInt64.size - 1 - start.toNat) := by
  cases call with
  | token first last kind nesting =>
    obtain ⟨hord, hlast⟩ := h
    exact ⟨hord, by omega⟩
  | endNull | setContext => trivial
  | fail message => exact h

theorem allowed_of_apply (h : call.apply e = .ok out) :
    call.Allowed e.lineStart ∧ out.lineStart = e.lineStart := by
  cases call with
  | token first last kind nesting =>
    simp only [apply, bind_eq_ok_iff, pure_eq_ok_iff, Span.place_eq_ok_iff,
      Offset.advance_eq_ok_iff, Token.ofSpan_eq_ok_iff] at h
    obtain ⟨span, ⟨⟨-, hstart⟩, hlast, hstop⟩, token, ⟨hord, rfl⟩, rfl⟩ := h
    have hle : span.start.toNat ≤ span.stop.toNat := UInt64.le_iff_toNat_le.1 hord
    exact ⟨⟨by omega, hlast⟩, rfl⟩
  | endNull | setContext =>
    obtain rfl := Except.ok.inj h
    exact ⟨trivial, rfl⟩
  | fail message => cases h

/-- Calls have a result together when each of them has one, as they leave the start of the line alone. -/
theorem applyAll_eq_ok_iff :
    applyAll calls e = .ok out ↔ (∀ call ∈ calls, call.Allowed e.lineStart) ∧ e.after calls = out := by
  constructor
  · intro h
    have hall : ∀ call ∈ calls, call.Allowed e.lineStart := by
      induction calls generalizing e with
      | nil => exact fun call hcall => absurd hcall List.not_mem_nil
      | cons call calls ih =>
        obtain ⟨e', hfirst, hrest⟩ := bind_eq_ok_iff.1 h
        obtain ⟨hallowed, hstart⟩ := allowed_of_apply hfirst
        rw [List.forall_mem_cons]
        exact ⟨hallowed, hstart ▸ ih hrest⟩
    have hlt := e.lineStart.toNat_lt_size
    rw [applyAll_eq_after (fun call hcall => within_of_allowed (hall call hcall)) (by omega)] at h
    exact ⟨hall, Except.ok.inj h⟩
  · rintro ⟨hall, rfl⟩
    have hlt := e.lineStart.toNat_lt_size
    exact applyAll_eq_after (fun call hcall => within_of_allowed (hall call hcall)) (by omega)

/-- None of the tokens has its ends taken modulo `2 ^ 64`. -/
theorem adds_shift {start : Offset} (h : ∀ call ∈ calls, call.Allowed start) :
    List.Forall₂ (Adds start) (calls.filter isToken)
      ((calls.filterMap token?).map fun t => t.shift start) := by
  induction calls with
  | nil => exact .nil
  | cons call calls ih =>
    obtain ⟨hfirst, hrest⟩ := List.forall_mem_cons.1 h
    cases call with
    | token first last kind nesting =>
      obtain ⟨hord, hlast⟩ := hfirst
      have hsum {n : Nat} (hn : n ≤ last) : (UInt64.ofNat n + start).toNat = start.toNat + n := by
        rw [UInt64.toNat_add, UInt64.toNat_ofNat_of_lt' (by omega), Nat.add_comm]
        exact Nat.mod_eq_of_lt (show start.toNat + n < UInt64.size by omega)
      exact .cons ⟨rfl, rfl, hsum hord, hsum (Nat.le_refl last)⟩ (ih hrest)
    | endNull => exact ih hrest
    | setContext context => exact ih hrest
    | fail message => exact hfirst.elim

/-- The line is closed in null where it was closed before and no token is added, or at the last. -/
theorem foldl_nullAfter_iff (closed : Bool) :
    calls.foldl nullAfter closed = true ↔
      EndNull calls ∨ (closed = true ∧ ∀ call ∈ calls, call.isToken = false) := by
  induction calls generalizing closed with
  | nil => simp [EndNull]
  | cons call calls ih =>
    have hcons : EndNull (call :: calls) ↔
        EndNull calls ∨ (call = .endNull ∧ ∀ later ∈ calls, later.isToken = false) := by
      constructor
      · rintro ⟨before, after, heq, hafter⟩
        cases before with
        | nil =>
          obtain ⟨rfl, rfl⟩ := List.cons.inj heq
          exact .inr ⟨rfl, hafter⟩
        | cons first before =>
          obtain ⟨rfl, rfl⟩ := List.cons.inj heq
          exact .inl ⟨before, after, rfl, hafter⟩
      · rintro (⟨before, after, rfl, hafter⟩ | ⟨rfl, hafter⟩)
        · exact ⟨call :: before, after, rfl, hafter⟩
        · exact ⟨[], calls, rfl, hafter⟩
    rw [List.foldl_cons, ih, hcons, List.forall_mem_cons]
    cases call with
    | token => simp [nullAfter, isToken]
    | setContext | fail => simp [nullAfter, isToken]
    | endNull =>
      simp only [nullAfter, isToken, true_and]
      constructor
      · rintro (hend | hafter)
        · exact .inl (.inl hend)
        · exact .inl (.inr hafter)
      · rintro ((hend | hafter) | ⟨-, hafter⟩)
        · exact .inl hend
        · exact .inr hafter
        · exact .inr hafter

theorem foldl_contextAfter (context : Option Context) :
    calls.foldl contextAfter context = (calls.filterMap written?).getLast?.getD context := by
  induction calls generalizing context with
  | nil => rfl
  | cons call calls ih =>
    rw [List.foldl_cons, ih]
    cases call with
    | setContext written => simp [contextAfter, written?, List.getLast?_cons]
    | token | endNull | fail => rfl

end Call

namespace Engine

/-- What the engine is after a line on which its grammar has made the calls. -/
structure Emitted (e : Engine) (segment : Segment) (initial : Kind) (offset : Offset)
    (calls : List Call) (e' : Engine) : Prop where
  grammar_eq : e'.grammar = e.grammar
  languageIndex_eq : e'.languageIndex = e.languageIndex
  tokens : List.Forall₂ (Call.Adds offset) (calls.filter Call.isToken) e'.row.tokens
  start_eq : e'.row.start = offset
  stop_eq : e'.row.terminal.span.start.toNat = offset.toNat + segment.size
  empty : e'.row.terminal.span.start = e'.row.terminal.span.stop
  null_of_endNull : Call.EndNull calls → e'.row.terminal.kind = .null
  kind_of_not_endNull : ¬ Call.EndNull calls →
    e'.row.terminal.kind = e'.row.tokens.getLast?.elim initial Token.kind
  context_eq : e'.context = (calls.filterMap Call.written?).getLast?.getD e.context

variable {e e' : Engine} {g : Grammar} {segment : Segment} {initial : Kind} {offset : Offset}

def afterCalls (e : Engine) (segment : Segment) (initial : Kind) (offset stop : Offset)
    (calls : List Call) : Engine :=
  let out := (e.emitter segment offset).after calls
  { e with context := out.context, row := out.close stop initial }

theorem exists_analyze_eq_ok_iff (hg : e.grammar = some g) :
    (∃ signals, e.analyze segment initial offset = .ok (e', signals)) ↔
      ∃ stop, offset.advance segment.size = .ok stop ∧
        (∀ call ∈ (g.emit segment initial offset).calls (e.emitter segment offset),
          call.Allowed offset) ∧
        e.afterCalls segment initial offset stop
          ((g.emit segment initial offset).calls (e.emitter segment offset)) = e' := by
  constructor
  · rintro ⟨signals, h⟩
    unfold analyze at h
    obtain ⟨stop, hstop, h⟩ := bind_eq_ok_iff.1 h
    rw [hg] at h
    obtain ⟨⟨out, notes⟩, hrun, h⟩ := bind_eq_ok_iff.1 h
    obtain ⟨rfl, -⟩ := Prod.mk.inj (pure_eq_ok_iff.1 h)
    obtain ⟨hall, rfl⟩ := Call.applyAll_eq_ok_iff.1 (Emission.exists_run_eq_ok_iff.1 ⟨notes, hrun⟩)
    refine ⟨stop, hstop, hall, ?_⟩
    rw [← hg]
    rfl
  · rintro ⟨stop, hstop, hall, rfl⟩
    exact analyze_eq_of_calls hg hstop (Call.applyAll_eq_ok_iff.2 ⟨hall, rfl⟩)

/-- The kind of the last token is the continuation, unless the line is closed in null. -/
theorem row_afterCalls (stop : Offset) (calls : List Call) :
    (e.afterCalls segment initial offset stop calls).row =
      let tokens := (calls.filterMap Call.token?).map fun t => t.shift offset
      ⟨tokens, if calls.foldl Call.nullAfter false then .null else
        tokens.getLast?.elim initial Token.kind, offset, stop⟩ := by
  show ((e.emitter segment offset).after calls).close stop initial = _
  unfold Emitter.close
  show (if calls.foldl Call.nullAfter false then _ else _) = _
  cases calls.foldl Call.nullAfter false <;> rfl

theorem emitted_afterCalls {calls : List Call} {stop : Offset}
    (hstop : offset.advance segment.size = .ok stop) (hall : ∀ call ∈ calls, call.Allowed offset) :
    e.Emitted segment initial offset calls (e.afterCalls segment initial offset stop calls) := by
  have hnull : calls.foldl Call.nullAfter false = true ↔ Call.EndNull calls := by
    rw [Call.foldl_nullAfter_iff]
    simp
  have htokens := Call.adds_shift hall
  have hend : stop.toNat = offset.toNat + segment.size := (Offset.advance_eq_ok_iff.1 hstop).2
  refine ⟨rfl, rfl, ?_, ?_, ?_, rfl, ?_, ?_, Call.foldl_contextAfter _⟩ <;>
    simp only [Row.terminal, row_afterCalls]
  · exact htokens
  · exact hend
  · intro h
    rw [if_pos (hnull.2 h)]
  · intro h
    rw [if_neg (mt hnull.1 h)]

/-- An analysis has a result exactly if the line ends at an offset and every call of the grammar has one.
What it is lies in the calls alone, and the row that an earlier line has left has no part in it. -/
theorem analyze_emits (hg : e.grammar = some g) (segment : Segment) (initial : Kind)
    (offset : Offset) :
    let calls := (g.emit segment initial offset).calls (e.emitter segment offset)
    ((∃ result, e.analyze segment initial offset = .ok result) ↔
        offset.toNat + segment.size < UInt64.size ∧ ∀ call ∈ calls, call.Allowed offset) ∧
      (∀ e' signals, e.analyze segment initial offset = .ok (e', signals) →
        e.Emitted segment initial offset calls e') ∧
      ∀ row, ({ e with row } : Engine).analyze segment initial offset =
        e.analyze segment initial offset := by
  intro calls
  refine ⟨⟨?_, ?_⟩, ?_, fun row => rfl⟩
  · rintro ⟨⟨e', signals⟩, h⟩
    obtain ⟨stop, hstop, hall, -⟩ := (exists_analyze_eq_ok_iff hg).1 ⟨signals, h⟩
    exact ⟨(Offset.advance_eq_ok_iff.1 hstop).1, hall⟩
  · rintro ⟨hfit, hall⟩
    obtain ⟨stop, hstop⟩ := Offset.exists_advance hfit
    obtain ⟨signals, h⟩ := (exists_analyze_eq_ok_iff hg).2 ⟨stop, hstop, hall, rfl⟩
    exact ⟨_, h⟩
  · intro e' signals h
    obtain ⟨stop, hstop, hall, rfl⟩ := (exists_analyze_eq_ok_iff hg).1 ⟨signals, h⟩
    exact emitted_afterCalls hstop hall

open Grammar.Script in
/-- A grammar takes a null end back by a token that it adds for the context it has found and replaced. -/
theorem analyze_emits_script :
    let g := Grammar.script "calls" [.token (.offset 0) (.offset 1) .comment none, .endNull,
      .branch (.context (some (.nesting 2)))
        [.assign (some (.nesting 3)), .token (.offset 1) .size .keyword (some 4)] [.fail "opened"],
      .replace none, .assign (some (.nesting 5))]
    let e : Engine := ⟨some g, 7, some (.nesting 2), ⟨[⟨.text, ⟨0, 9⟩, none⟩], .comment, 0, 9⟩⟩
    e.grammar = some g ∧ ∃ e' signals, e.analyze (.whole "abc") .text 10 = .ok (e', signals) ∧
      e'.row.tokens.map Token.kind = [.comment, .keyword] ∧ e'.row.terminal.kind = .keyword ∧
      e'.context = some (.nesting 5) := by
  intro g e
  obtain ⟨hresult, hemitted, -⟩ := analyze_emits (e := e) (g := g) rfl (.whole "abc") .text 10
  have hcalls : (g.emit (.whole "abc") .text 10).calls (e.emitter (.whole "abc") 10) =
      [.token 0 1 .comment none, .endNull, .setContext (some (.nesting 3)),
        .token 1 3 .keyword (some 4), .setContext none, .setContext (some (.nesting 5))] := by
    decide +kernel
  rw [hcalls] at hresult hemitted
  obtain ⟨⟨e', signals⟩, hrun⟩ := hresult.2 ⟨by decide +kernel, by decide +kernel⟩
  have h := hemitted e' signals hrun
  obtain ⟨t, _, hfirst, hrest, htokens⟩ := List.forall₂_cons_left_iff.1 h.tokens
  obtain ⟨u, _, hsecond, hnone, rfl⟩ := List.forall₂_cons_left_iff.1 hrest
  obtain rfl := List.forall₂_nil_left_iff.1 hnone
  have hkinds : e'.row.tokens.map Token.kind = [.comment, .keyword] := by
    rw [htokens, List.map_cons, hfirst.1, List.map_singleton, hsecond.1]
  have hlast : e'.row.terminal.kind = .keyword := by
    rw [h.kind_of_not_endNull, htokens]
    · exact hsecond.1
    · intro hnull
      exact absurd ((Call.foldl_nullAfter_iff false).2 (.inl hnull)) Bool.false_ne_true
  exact ⟨rfl, e', signals, hrun, hkinds, hlast, h.context_eq⟩

end Engine
end Linewise
