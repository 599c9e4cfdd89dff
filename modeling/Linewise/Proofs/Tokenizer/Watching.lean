import Mathlib.Data.List.Chain
import Linewise.Proofs.Tokenizer.Instances
import Linewise.Proofs.Tokenizer.Mirroring

/-! A tokenizer whose context is watched: when it is set from outside, when it is taken away and what the
grammar is handed when an analysis begins. If that comes right after the context was set, it is that. -/
namespace Linewise

/-- Something that happens to the context of a tokenizer. -/
inductive Moment where
  | told (context : Option Context)
  | took
  | began (context : Option Context)
  deriving DecidableEq, Repr

namespace Moment

def told? : Moment → Option (Option Context)
  | .told context => some context
  | .took | .began _ => none

/-- An analysis that comes next begins with the context that was set. -/
def Then : Moment → Moment → Prop
  | .told context, .began context' => context' = context
  | _, _ => True

end Moment

/-- The history of a tokenizer with the context that it has come to, and all that it was told on the way. -/
structure Follows (context : Option Context) (history : List Moment)
    (reported : List (Option Context)) : Prop where
  reported_eq : history.filterMap Moment.told? = reported
  chain : history.IsChain Moment.Then
  context_eq : ∀ c, history.getLast? = some (.told c) → context = c

namespace Follows

variable {context : Option Context} {history : List Moment} {reported : List (Option Context)}

theorem nil (context : Option Context) : Follows context [] [] where
  reported_eq := rfl
  chain := .nil
  context_eq := fun c h => by simp at h

theorem isChain_append_singleton (h : Follows context history reported) {moment : Moment}
    (hnext : ∀ c, history.getLast? = some (.told c) → (Moment.told c).Then moment) :
    (history ++ [moment]).IsChain Moment.Then := by
  rw [List.isChain_append]
  refine ⟨h.chain, List.isChain_singleton moment, ?_⟩
  intro last hlast next hmoment
  obtain rfl := Option.some.inj hmoment
  cases last with
  | told c => exact hnext c hlast
  | took | began => trivial

theorem told (h : Follows context history reported) (set : Option Context) :
    Follows set (history ++ [.told set]) (reported ++ [set]) where
  reported_eq := by
    rw [List.filterMap_append, h.reported_eq]
    rfl
  chain := h.isChain_append_singleton fun _ _ => trivial
  context_eq := by
    intro c hlast
    rw [List.getLast?_concat] at hlast
    cases hlast
    rfl

theorem took (h : Follows context history reported) (left : Option Context) :
    Follows left (history ++ [.took]) reported where
  reported_eq := by
    rw [List.filterMap_append, h.reported_eq]
    exact List.append_nil reported
  chain := h.isChain_append_singleton fun _ _ => trivial
  context_eq := by
    intro c hlast
    rw [List.getLast?_concat] at hlast
    cases hlast

/-- The analysis may leave any context behind. -/
theorem began (h : Follows context history reported) (left : Option Context) :
    Follows left (history ++ [.began context]) reported where
  reported_eq := by
    rw [List.filterMap_append, h.reported_eq]
    exact List.append_nil reported
  chain := h.isChain_append_singleton h.context_eq
  context_eq := by
    intro c hlast
    rw [List.getLast?_concat] at hlast
    cases hlast

theorem began_eq (h : Follows context history reported) {c c' : Option Context}
    (hnext : [.told c, .began c'] <:+: history) : c' = c := by
  have hpair := List.IsChain.infix h.chain hnext
  rw [List.isChain_pair] at hpair
  exact hpair

end Follows

def Observation.handed? : Observation → Option (Option Context)
  | .saw emitter _ _ _ => some emitter.context
  | .replaced _ => none

/-- The same emissions from a grammar that first records what it is handed. -/
def Grammar.spied (g : Grammar) : Grammar :=
  { g with
    emit := fun segment initial offset =>
      .look fun emitter => .note (.saw emitter segment initial offset) (g.emit segment initial offset) }

namespace Instance

/-- The context that the grammar is handed for the line. Where an analysis does not come to a grammar
there is none. -/
def handed? (segment : Segment) (initial : Kind) (offset : Offset) : Instance → Option (Option Context)
  | .engine e =>
    let spied : Engine := { e with grammar := e.grammar.map Grammar.spied }
    match spied.analyze segment initial offset with
    | .ok (_, signals) => (Signal.observations signals).head?.bind Observation.handed?
    | .error _ => none
  | .plain _ | .table _ _ => none

theorem handed?_engine {e e' : Engine} {g : Grammar} (hgrammar : e.grammar = some g)
    {segment : Segment} {initial : Kind} {offset : Offset} {signals : List Signal}
    (h : e.analyze segment initial offset = .ok (e', signals)) :
    (Instance.engine e).handed? segment initial offset = some e.context := by
  obtain ⟨stop, hstop, h⟩ := bind_eq_ok_iff.1 h
  simp only [hgrammar] at h
  obtain ⟨⟨out, notes⟩, hrun, -⟩ := bind_eq_ok_iff.1 h
  let handed : Observation := .saw (e.emitter segment offset) segment initial offset
  have hspied : (g.spied.emit segment initial offset).run (e.emitter segment offset) =
      .ok (out, handed :: notes) := bind_eq_ok_iff.2 ⟨(out, notes), hrun, rfl⟩
  have hanalyze : Engine.analyze { e with grammar := some g.spied } segment initial offset =
      .ok ({ e with grammar := some g.spied, context := out.context, row := out.close stop initial },
        .logged (.analysis e.languageIndex segment.size) :: .entered ::
          (handed :: notes).map .observed) :=
    bind_eq_ok_iff.2 ⟨stop, hstop, bind_eq_ok_iff.2 ⟨_, hspied, rfl⟩⟩
  simp only [handed?, hgrammar, Option.map_some, hanalyze]
  rfl

end Instance

structure Watched where
  state : Traced
  history : List Moment

def Traced.watched : Tokenizer Watched where
  analyze segment initial offset o := do
    let handed? := o.state.current.handed? segment initial offset
    let (row, s) ← tokenizer.analyze segment initial offset o.state
    return (row, ⟨s, o.history ++ (handed?.map .began).toList⟩)
  context o := tokenizer.context o.state
  setContext context o := ⟨tokenizer.setContext context o.state, o.history ++ [.told context]⟩

namespace Traced

/-- The engine `e` under watch: its history follows, up to the context that it has now. -/
structure Seen (e : Engine) (reported : List (Option Context)) (s : Traced) (o : Watched) : Prop where
  state_eq : o.state = s
  fresh_eq : s.current.fresh = (Instance.engine e).fresh
  follows : Follows s.current.context o.history reported

variable {e : Engine} {g : Grammar} {reported : List (Option Context)} {s : Traced} {o : Watched}

/-- Watching makes no difference to the tokenizer, and each analysis goes on from the history. -/
theorem mirror_seen (hgrammar : e.grammar = some g) (reported : List (Option Context)) :
    Mirror tokenizer watched (Seen e reported) where
  analyze := by
    intro segment kind offset s o row s₁ h hrun
    have hstate := h.state_eq
    subst hstate
    obtain ⟨⟨j, signals⟩, hanalyze, hend⟩ := bind_eq_ok_iff.1 hrun
    obtain ⟨-, rfl⟩ := Prod.mk.inj (pure_eq_ok_iff.1 hend)
    have hhanded : o.state.current.handed? segment kind offset = some o.state.current.context := by
      obtain ⟨e', hengine, hsame, -⟩ := Instance.eq_engine_of_fresh h.fresh_eq
      rw [hengine] at hanalyze ⊢
      obtain ⟨⟨e₁, signals₁⟩, hanalyze, -⟩ := bind_eq_ok_iff.1 hanalyze
      exact Instance.handed?_engine (hsame.trans hgrammar) hanalyze
    refine ⟨⟨_, o.history ++ [.began o.state.current.context]⟩, ?_, rfl, ?_, h.follows.began _⟩
    · refine bind_eq_ok_iff.2 ⟨_, hrun, ?_⟩
      rw [hhanded]
      rfl
    · exact (Instance.fresh_analyze hanalyze).trans h.fresh_eq
  context := by
    intro s o h
    rw [← h.state_eq]
    rfl

theorem Seen.setContext (h : Seen e reported s o) (context : Option Context) :
    Seen e (reported ++ [context]) (tokenizer.setContext context s) (watched.setContext context o) := by
  have hstate := h.state_eq
  subst hstate
  have hcontext : (tokenizer.setContext context o.state).current.context = context := by
    obtain ⟨e', hengine, -⟩ := Instance.eq_engine_of_fresh h.fresh_eq
    show (o.state.current.setContext context).1.context = context
    rw [hengine]
    rfl
  refine ⟨rfl, (Instance.fresh_setContext context o.state.current).trans h.fresh_eq, ?_⟩
  rw [hcontext]
  exact h.follows.told context

theorem Seen.tell (h : Seen e reported s o) (told? : Option (Option Context)) :
    Seen e (reported ++ told?.toList) (tokenizer.tell told? s) (watched.tell told? o) := by
  cases told? with
  | none => exact (List.append_nil reported).symm ▸ h
  | some context => exact h.setContext context

end Traced
end Linewise
