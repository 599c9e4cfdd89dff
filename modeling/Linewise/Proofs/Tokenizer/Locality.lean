import Linewise.Proofs.Document.Shape
import Linewise.Proofs.Text.Views

/-! Tokenizers whose analysis of a line has nothing to do with where the line is. The shape of a line
is then given by a rule, and a document built from scratch is given by the rule and the starts. -/
namespace Linewise

/-- The shape of a line by its text, and by the kind and the context that it starts in. -/
abbrev Rule := String → Kind → Option Context → Shape

variable {σ : Type}

/-- In each of its `states` the tokenizer analyzes every line that ends within the offsets. It does so
by the rule, which puts ordered tokens inside of the line, and it can be left without a context. -/
structure FollowsRule (t : Tokenizer σ) (states : σ → Prop) (rule : Rule) : Prop where
  analyze : ∀ {s : σ} {segment : Segment} {text : String} (kind : Kind) {offset : Offset},
    states s → segment.Shows text → offset.toNat + segment.size < UInt64.size →
      ∃ row s', t.analyze segment kind offset s = .ok (row, s') ∧ states s' ∧
        (Line.ofRow row (t.context s') offset).shape = rule text kind (t.context s)
  fits : ∀ {text : String} (kind : Kind) (context : Option Context),
    Text.size text.toList < UInt64.size → (rule text kind context).Fits (Text.size text.toList)
  reset : ∀ {s : σ}, states s →
    states (t.setContext none s) ∧ t.context (t.setContext none s) = none

/-- Besides, each context that the tokenizer has reported can be given back to it. -/
structure LineLocal (t : Tokenizer σ) (states : σ → Prop) (rule : Rule) : Prop
    extends FollowsRule t states rule where
  restore : ∀ {s s' : σ}, states s → states s' →
    states (t.setContext (t.context s') s) ∧ t.context (t.setContext (t.context s') s) = t.context s'

namespace Rule

def shapes (rule : Rule) : List String → Kind → Option Context → List Shape
  | [], _, _ => []
  | text :: texts, kind, context =>
    let x := rule text kind context
    x :: rule.shapes texts x.continuation x.context

@[simp] theorem length_shapes (rule : Rule) (texts : List String) (kind : Kind)
    (context : Option Context) : (rule.shapes texts kind context).length = texts.length := by
  induction texts generalizing kind context with
  | nil => rfl
  | cons text texts ih => simp [shapes, ih]

def document (rule : Rule) (texts : List String) (endings : List Nat) : Document :=
  ⟨List.zipWith Shape.lineAt (rule.shapes texts .null none) (startsFrom 0 texts endings), endings⟩

end Rule

theorem map_shape_zipWith_lineAt {xs : List Shape} {starts : List Offset}
    (h : starts.length = xs.length) : (List.zipWith Shape.lineAt xs starts).map Line.shape = xs := by
  induction xs generalizing starts with
  | nil => simp
  | cons x xs ih =>
    cases starts with
    | nil => simp at h
    | cons start starts => simp [ih (Nat.succ.inj h)]

theorem map_start_zipWith_lineAt {xs : List Shape} {starts : List Offset}
    (h : starts.length = xs.length) :
    (List.zipWith Shape.lineAt xs starts).map Line.start = starts := by
  induction xs generalizing starts with
  | nil => simpa using h
  | cons x xs ih =>
    cases starts with
    | nil => simp at h
    | cons start starts => simp [ih (Nat.succ.inj h)]

theorem Rule.map_shape_document (rule : Rule) (texts : List String) (endings : List Nat) :
    (rule.document texts endings).lines.map Line.shape = rule.shapes texts .null none :=
  map_shape_zipWith_lineAt (by simp)

namespace FollowsRule

variable {t : Tokenizer σ} {states : σ → Prop} {rule : Rule}

theorem line_eq (ht : FollowsRule t states rule) {s : σ} (hs : states s) {text : String}
    {start : Offset} (kind : Kind) (hfit : start.toNat + Text.size text.toList < UInt64.size) :
    ∃ s', states s' ∧ t.context s' = (rule text kind (t.context s)).context ∧
      t.line text start kind s = .ok ((rule text kind (t.context s)).lineAt start, s') := by
  have hsize : (Segment.whole text).size = Text.size text.toList := (Segment.shows_whole text).size_eq
  obtain ⟨row, s', hrun, hs', hshape⟩ :=
    ht.analyze kind hs (Segment.shows_whole text) (by rwa [hsize])
  refine ⟨s', hs', by rw [← hshape]; rfl, ?_⟩
  have hline : Line.ofRow row (t.context s') start = (rule text kind (t.context s)).lineAt start := by
    rw [← hshape]
    exact (Line.lineAt_shape (Line.ofRow row (t.context s') start)).symm
  unfold Tokenizer.line
  rw [hrun, ← hline]
  rfl

theorem lines_eq (ht : FollowsRule t states rule) {texts : List String} {starts : List Offset}
    (hfit : ∀ p ∈ texts.zip starts, p.2.toNat + Text.size p.1.toList < UInt64.size)
    (hlen : starts.length = texts.length) {s : σ} (hs : states s) (kind : Kind) :
    ∃ s', states s' ∧ t.lines (texts.zip starts) kind s =
      .ok (List.zipWith Shape.lineAt (rule.shapes texts kind (t.context s)) starts, s') := by
  induction texts generalizing starts s kind with
  | nil => exact ⟨s, hs, rfl⟩
  | cons text texts ih =>
    cases starts with
    | nil => simp at hlen
    | cons start starts =>
      obtain ⟨s', hs', hcontext, hline⟩ := ht.line_eq hs kind (hfit (text, start) List.mem_cons_self)
      obtain ⟨s'', hs'', hlines⟩ := ih (fun p hp => hfit p (List.mem_cons_of_mem _ hp))
        (Nat.succ.inj hlen) hs' (rule text kind (t.context s)).continuation
      refine ⟨s'', hs'', bind_eq_ok_iff.2 ⟨_, hline, bind_eq_ok_iff.2 ⟨_, hlines, ?_⟩⟩⟩
      rw [hcontext]
      rfl

/-- Built from scratch in any state, a document is the one that the rule gives. -/
theorem build_eq (ht : FollowsRule t states rule) {texts : List String} {endings : List Nat}
    (hfit : extent texts endings < UInt64.size) {s : σ} (hs : states s) :
    ∃ s', states s' ∧ Document.build t texts endings s = .ok (rule.document texts endings, s') := by
  obtain ⟨hreset, hnone⟩ := ht.reset hs
  have hstarts : lineStarts 0 texts endings = .ok (startsFrom 0 texts endings) :=
    lineStarts_eq_ok_iff.2 ⟨by simpa using hfit, rfl⟩
  obtain ⟨s', hs', hlines⟩ := ht.lines_eq
    (fun p hp => toNat_start_add_size_lt (by simpa using hfit) hp)
    (length_startsFrom 0 texts endings) hreset .null
  rw [hnone] at hlines
  refine ⟨s', hs', bind_eq_ok_iff.2 ⟨_, hstarts, bind_eq_ok_iff.2 ⟨_, hlines, rfl⟩⟩⟩

end FollowsRule
end Linewise
