import Linewise.Grammar
import Linewise.Proofs.Document.Shape

/-! An emission as the list of calls that it makes on its emitter. The calls decide everything but
what is recorded, and as long as they keep to the line their effect is the same wherever it starts. -/
namespace Linewise

inductive Call where
  | token (start stop : Nat) (kind : Kind) (nesting : Option UInt16)
  | endNull
  | setContext (context : Option Context)
  | fail (message : String)
  deriving DecidableEq, Repr

namespace Call

def apply : Call → Emitter → Except Fault Emitter
  | .token start stop kind nesting, e => do
    let span ← Span.place e.lineStart start stop
    let token ← Token.ofSpan kind span nesting
    return e.emit token
  | .endNull, e => .ok e.endNull
  | .setContext context, e => .ok (e.setContext context)
  | .fail message, _ => .error (.raised message)

def applyAll : List Call → Emitter → Except Fault Emitter
  | [], e => .ok e
  | call :: calls, e => do
    let e ← call.apply e
    applyAll calls e

/-- The call neither fails nor leaves a line of `size` bytes. -/
def Within (size : Nat) : Call → Prop
  | .token start stop _ _ => start ≤ stop ∧ stop ≤ size
  | .endNull | .setContext _ => True
  | .fail _ => False

def token? : Call → Option Token
  | .token start stop kind nesting => some ⟨kind, ⟨.ofNat start, .ofNat stop⟩, nesting⟩
  | _ => none

def contextAfter (context : Option Context) : Call → Option Context
  | .setContext written => written
  | _ => context

/-- Whether the line is closed in null. A token takes back an earlier null end. -/
def nullAfter (closed : Bool) : Call → Bool
  | .token _ _ _ _ => false
  | .endNull => true
  | _ => closed

def shape (calls : List Call) (kind : Kind) (context : Option Context) : Shape :=
  let tokens := calls.filterMap token?
  let last := tokens.getLast?.elim kind Token.kind
  ⟨tokens, if calls.foldl nullAfter false then .null else last, calls.foldl contextAfter context⟩

theorem token?_fits {call : Call} {size : Nat} (h : call.Within size) (hsize : size < UInt64.size)
    {t : Token} (ht : call.token? = some t) : t.span.Ordered ∧ t.span.stop.toNat ≤ size := by
  cases call with
  | token start stop kind nesting =>
    obtain ⟨hord, hstop⟩ := h
    obtain rfl := Option.some.inj ht
    have hstart' : (UInt64.ofNat start).toNat = start := UInt64.toNat_ofNat_of_lt' (by omega)
    have hstop' : (UInt64.ofNat stop).toNat = stop := UInt64.toNat_ofNat_of_lt' (by omega)
    refine ⟨UInt64.le_iff_toNat_le.2 ?_, ?_⟩
    · rw [hstart', hstop']
      exact hord
    · rw [hstop']
      exact hstop
  | endNull => cases ht
  | setContext written => cases ht
  | fail message => cases ht

theorem shape_fits {calls : List Call} {size : Nat} (h : ∀ call ∈ calls, call.Within size)
    (hsize : size < UInt64.size) (kind : Kind) (context : Option Context) :
    (shape calls kind context).Fits size := by
  intro t ht
  obtain ⟨call, hcall, htoken⟩ := List.mem_filterMap.1 ht
  exact token?_fits (h call hcall) hsize htoken

end Call

/-- The calls that the emission makes from `e` on, up to a first one that faults. -/
def Emission.calls : Emission → Emitter → List Call
  | .done, _ => []
  | .token start stop kind nesting next, e =>
    .token start stop kind nesting ::
      match (Call.token start stop kind nesting).apply e with
      | .ok e => next.calls e
      | .error _ => []
  | .endNull next, e => .endNull :: next.calls e.endNull
  | .setContext context next, e => .setContext context :: next.calls (e.setContext context)
  | .look next, e => (next e).calls e
  | .note _ next, e => next.calls e
  | .fail message, _ => [.fail message]

theorem Emission.run_eq_applyAll (p : Emission) (e : Emitter) :
    (p.run e).map Prod.fst = Call.applyAll (p.calls e) e := by
  induction p generalizing e with
  | done => rfl
  | token start stop kind nesting next ih =>
    simp only [run, calls, Call.applyAll, Call.apply]
    cases hspan : Span.place e.lineStart start stop with
    | error fault => rfl
    | ok span =>
      simp only [bind, Except.bind, pure, Except.pure]
      cases htoken : Token.ofSpan kind span nesting with
      | error fault => rfl
      | ok token => exact ih (e.emit token)
  | endNull next ih => exact ih e.endNull
  | setContext context next ih => exact ih (e.setContext context)
  | look next ih => exact ih e e
  | note observation next ih =>
    rw [calls, ← ih e, run]
    cases next.run e <;> rfl
  | fail message => rfl

theorem Emission.exists_run_eq_ok_iff {p : Emission} {e out : Emitter} :
    (∃ notes, p.run e = .ok (out, notes)) ↔ Call.applyAll (p.calls e) e = .ok out := by
  rw [← p.run_eq_applyAll e]
  cases p.run e with
  | error fault => simp [Except.map]
  | ok result =>
    obtain ⟨out', notes⟩ := result
    simp [Except.map, eq_comm]

def Emitter.after (e : Emitter) (calls : List Call) : Emitter :=
  { e with
    row := { e.row with
      tokens := e.row.tokens ++ (calls.filterMap Call.token?).map fun t => t.shift e.lineStart }
    context := calls.foldl Call.contextAfter e.context
    nullEnded := calls.foldl Call.nullAfter e.nullEnded }

theorem Call.apply_eq_after {call : Call} {e : Emitter} {size : Nat} (h : call.Within size)
    (hfit : e.lineStart.toNat + size < UInt64.size) : call.apply e = .ok (e.after [call]) := by
  cases call with
  | token start stop kind nesting =>
    let span : Span := ⟨.ofNat start, .ofNat stop⟩
    have hbounds : start ≤ stop ∧ stop ≤ size := h
    have hstart' : span.start.toNat = start := UInt64.toNat_ofNat_of_lt' (by omega)
    have hstop' : span.stop.toNat = stop := UInt64.toNat_ofNat_of_lt' (by omega)
    have hord : span.Ordered := (token?_fits h (by omega) rfl).1
    have hplace : Span.place e.lineStart start stop = .ok (span.shift e.lineStart) := by
      have hshift : Span.place e.lineStart span.start.toNat span.stop.toNat = _ :=
        Span.place_eq_shift (by omega) (by omega)
      rwa [hstart', hstop'] at hshift
    have hordered : (span.shift e.lineStart).Ordered := Span.ordered_shift hord (by omega)
    rw [apply, hplace]
    simp only [bind, Except.bind, Token.ofSpan_eq_ok_iff.2 ⟨hordered, rfl⟩]
    rfl
  | endNull =>
    simp [apply, Emitter.after, Emitter.endNull, List.filterMap_cons, token?, contextAfter,
      nullAfter]
  | setContext context =>
    simp [apply, Emitter.after, Emitter.setContext, List.filterMap_cons, token?, contextAfter,
      nullAfter]
  | fail message => exact h.elim

theorem Emitter.after_after (e : Emitter) (call : Call) (calls : List Call) :
    (e.after [call]).after calls = e.after (call :: calls) := by
  cases call <;> simp [after, Emitter.lineStart, List.filterMap_cons, Call.token?]

theorem Call.applyAll_eq_after {calls : List Call} {e : Emitter} {size : Nat}
    (h : ∀ call ∈ calls, call.Within size) (hfit : e.lineStart.toNat + size < UInt64.size) :
    applyAll calls e = .ok (e.after calls) := by
  induction calls generalizing e with
  | nil => simp [applyAll, Emitter.after]
  | cons call calls ih =>
    have hfirst := apply_eq_after (h call List.mem_cons_self) hfit
    have hrest := ih (fun c hc => h c (List.mem_cons_of_mem call hc)) (show
      (e.after [call]).lineStart.toNat + size < UInt64.size from hfit)
    rw [applyAll, hfirst]
    exact hrest.trans (congrArg Except.ok (e.after_after call calls))

namespace Emission

def Blind : Emission → Prop
  | .done => True
  | .token _ _ _ _ next | .endNull next | .setContext _ next | .note _ next => next.Blind
  | .look _ => False
  | .fail _ => True

def written : Emission → List Call
  | .done | .look _ => []
  | .token start stop kind nesting next => .token start stop kind nesting :: next.written
  | .endNull next => .endNull :: next.written
  | .setContext context next => .setContext context :: next.written
  | .note _ next => next.written
  | .fail message => [.fail message]

/-- As long as they keep to the line, the calls that are made are those that are written down. -/
theorem calls_eq_written {p : Emission} (hblind : p.Blind) {size : Nat}
    (h : ∀ call ∈ p.written, call.Within size) {e : Emitter}
    (hfit : e.lineStart.toNat + size < UInt64.size) : p.calls e = p.written := by
  induction p generalizing e with
  | done => rfl
  | token start stop kind nesting next ih =>
    rcases List.forall_mem_cons.1 h with ⟨hfirst, hrest⟩
    have hnext : next.calls (e.after [.token start stop kind nesting]) = next.written :=
      ih hblind hrest hfit
    simp only [calls, written, Call.apply_eq_after hfirst hfit, hnext]
  | endNull next ih =>
    have hnext : next.calls e.endNull = next.written :=
      ih hblind (List.forall_mem_cons.1 h).2 hfit
    simp only [calls, written, hnext]
  | setContext context next ih =>
    have hnext : next.calls (e.setContext context) = next.written :=
      ih hblind (List.forall_mem_cons.1 h).2 hfit
    simp only [calls, written, hnext]
  | look next _ => exact hblind.elim
  | note observation next ih => exact ih hblind h hfit
  | fail message => rfl

end Emission
end Linewise
