import Linewise.Proofs.Document.Settling

/-! An update by a tokenizer that does not depend on where a line is has a result, and the rule gives
it. What it needs of the cache is that each line has room where it is moved to, and that the context
after it was reported by the tokenizer. -/
namespace Linewise

variable {σ : Type} {t : Tokenizer σ} {states : σ → Prop} {rule : Rule}

def Reported (t : Tokenizer σ) (states : σ → Prop) (context : Option Context) : Prop :=
  ∃ s, states s ∧ t.context s = context

/-- A line of the shape can be moved to `start`, and the line after it can be analyzed anew. -/
def Usable (t : Tokenizer σ) (states : σ → Prop) (x : Shape) (start : Offset) : Prop :=
  x.Reaches start ∧ Reported t states x.context

def HasRoom (text : String) (start : Offset) : Prop :=
  start.toNat + Text.size text.toList < UInt64.size

theorem startsFrom_hasRoom {n : Nat} {texts : List String} {endings : List Nat}
    (hfit : n + extent texts endings < UInt64.size) :
    List.Forall₂ HasRoom texts (startsFrom n texts endings) :=
  List.forall₂_iff_zip.2 ⟨(length_startsFrom n texts endings).symm,
    fun h => toNat_start_add_size_lt hfit h⟩

theorem FollowsRule.usable (ht : FollowsRule t states rule) {context : Option Context}
    (h : Reported t states context) {text : String} {start : Offset} (hroom : HasRoom text start)
    (kind : Kind) : Usable t states (rule text kind context) start := by
  have hsize : Text.size text.toList < UInt64.size := Nat.lt_of_le_of_lt (Nat.le_add_left ..) hroom
  refine ⟨(ht.fits kind context hsize).reaches hroom, ?_⟩
  obtain ⟨s, hs, rfl⟩ := h
  obtain ⟨s', hs', hcontext, -⟩ := ht.line_eq hs kind hroom
  exact ⟨s', hs', hcontext⟩

theorem FollowsRule.shapes_usable (ht : FollowsRule t states rule) {texts : List String}
    {starts : List Offset} (hroom : List.Forall₂ HasRoom texts starts) {context : Option Context}
    (h : Reported t states context) (kind : Kind) :
    List.Forall₂ (Usable t states) (rule.shapes texts kind context) starts := by
  induction hroom generalizing kind context with
  | nil => exact .nil
  | cons hfirst _ ih =>
    have hnew := ht.usable h hfirst kind
    exact .cons hnew (ih hnew.2 _)

/-- The shapes stay usable when the first ones are replaced by those of the rule. -/
theorem FollowsRule.settle_usable (ht : FollowsRule t states rule) {texts : List String}
    {xs : List Shape} {starts : List Offset} (hroom : List.Forall₂ HasRoom texts starts)
    (hxs : List.Forall₂ (Usable t states) xs starts) {context : Option Context}
    (h : Reported t states context) (kind : Kind) :
    List.Forall₂ (Usable t states) (rule.settle texts xs kind context) starts := by
  induction hroom generalizing xs kind context with
  | nil => exact .nil
  | cons hfirst _ ih =>
    cases hxs with
    | cons _ hrest =>
      have hnew := ht.usable h hfirst kind
      refine .cons hnew ?_
      split
      · exact hrest
      · exact ih hrest hnew.2 _

namespace Document

theorem slots_cons (text : String) (texts : List String) (start : Offset) (starts : List Offset)
    (cached : Line) (lines : List Line) :
    slots (text :: texts) (start :: starts) (cached :: lines) =
      ⟨text, start, cached⟩ :: slots texts starts lines := rfl

theorem drop_slots (texts : List String) (starts : List Offset) (lines : List Line) (index : Nat) :
    (slots texts starts lines).drop index =
      slots (texts.drop index) (starts.drop index) (lines.drop index) := by
  simp [slots, List.drop_zipWith, List.zip]

theorem rebase_slots {texts : List String} {starts : List Offset} {lines : List Line}
    (hlen : texts.length = starts.length)
    (hreach : List.Forall₂ (fun line start => line.shape.Reaches start) lines starts) :
    ((slots texts starts lines).mapM fun slot => slot.cached.rebase slot.start) =
      .ok (List.zipWith Shape.lineAt (lines.map Line.shape) starts) := by
  induction hreach generalizing texts with
  | nil => simp [slots, pure, Except.pure]
  | cons hfirst _ ih =>
    cases texts with
    | nil => simp at hlen
    | cons text texts =>
      rw [slots_cons, List.mapM_cons, Line.rebase_eq_lineAt hfirst, ih (Nat.succ.inj hlen)]
      rfl

/-- Settling lines is settling their shapes and putting the lines in their places. -/
theorem settle_eq (ht : FollowsRule t states rule) {texts : List String} {starts : List Offset}
    {lines : List Line} (hroom : List.Forall₂ HasRoom texts starts)
    (hreach : List.Forall₂ (fun line start => line.shape.Reaches start) lines starts) {s : σ}
    (hs : states s) (kind : Kind) :
    ∃ s', states s' ∧ settle t (slots texts starts lines) kind s =
      .ok (List.zipWith Shape.lineAt
        (rule.settle texts (lines.map Line.shape) kind (t.context s)) starts, s') := by
  induction hroom generalizing lines s kind with
  | nil =>
    cases hreach
    exact ⟨s, hs, rfl⟩
  | @cons text start texts starts hfirst hrest ih =>
    cases hreach with
    | @cons cached _ lines _ _ hlater =>
      obtain ⟨s', hs', hcontext, hline⟩ := ht.line_eq hs kind hfirst
      simp only [slots_cons, settle, hline, Except.bind, bind, pure, Except.pure, List.map_cons,
        Rule.settle, List.zipWith_cons_cons, Line.sameShape_iff_shape, Line.shape_lineAt]
      split
      · have hmoved := rebase_slots hrest.length_eq hlater
        rw [hmoved]
        exact ⟨s', hs', rfl⟩
      · obtain ⟨s'', hs'', hsettle⟩ := ih hlater hs' (rule text kind (t.context s)).continuation
        rw [hcontext] at hsettle
        refine ⟨s'', hs'', ?_⟩
        simp only [Shape.lineAt, hsettle]

end Document

def Rule.update (rule : Rule) (texts : List String) (index : Nat) (d : Document) : Document :=
  let xs := d.lines.map Line.shape
  let (kind, context) := Shape.before .null none xs index
  let settled := rule.settle (texts.drop index) (xs.drop index) kind context
  let starts := (startsFrom 0 texts d.endings).drop index
  ⟨d.lines.take index ++ List.zipWith Shape.lineAt settled starts, d.endings⟩

namespace Rule

variable {texts : List String} {d : Document}

theorem length_starts_settle (rule : Rule) (hlen : d.lines.length = texts.length) (index : Nat)
    (kind : Kind) (context : Option Context) :
    ((startsFrom 0 texts d.endings).drop index).length =
      (rule.settle (texts.drop index) ((d.lines.map Line.shape).drop index) kind context).length := by
  rw [length_settle rule (by simp [hlen])]
  simp [hlen]

theorem map_shape_update (rule : Rule) (hlen : d.lines.length = texts.length) (index : Nat) :
    (rule.update texts index d).lines.map Line.shape =
      (d.lines.map Line.shape).take index ++
        rule.settle (texts.drop index) ((d.lines.map Line.shape).drop index)
          (Shape.before .null none (d.lines.map Line.shape) index).1
          (Shape.before .null none (d.lines.map Line.shape) index).2 := by
  simp only [update, List.map_append, List.map_take,
    map_shape_zipWith_lineAt (rule.length_starts_settle hlen index _ _)]

theorem map_start_update (rule : Rule) (hlen : d.lines.length = texts.length) (index : Nat) :
    (rule.update texts index d).lines.map Line.start =
      (d.lines.map Line.start).take index ++ (startsFrom 0 texts d.endings).drop index := by
  simp only [update, List.map_append, List.map_take,
    map_start_zipWith_lineAt (rule.length_starts_settle hlen index _ _)]

end Rule

theorem Document.continuationBefore_eq (d : Document) (index : Nat) :
    d.continuationBefore index = Shape.before .null none (d.lines.map Line.shape) index := by
  cases index with
  | zero => rfl
  | succ index =>
    simp only [continuationBefore, Shape.before, List.getElem?_map]
    cases d.lines[index]? <;> rfl

theorem before_reported {xs : List Shape} {starts : List Offset}
    (hxs : List.Forall₂ (Usable t states) xs starts) (hnone : Reported t states none)
    (index : Nat) : Reported t states (Shape.before .null none xs index).2 := by
  cases index with
  | zero => exact hnone
  | succ index =>
    simp only [Shape.before]
    cases hx : xs[index]? with
    | none => exact hnone
    | some x =>
      obtain ⟨hlt, rfl⟩ := List.getElem?_eq_some_iff.1 hx
      exact (hxs.get hlt (hxs.length_eq ▸ hlt)).2

/-- An update has the result that the rule gives, and no line of it is without room. -/
theorem LineLocal.update_eq (ht : LineLocal t states rule) {d : Document} {texts : List String}
    (hfit : extent texts d.endings < UInt64.size)
    (huse : List.Forall₂ (Usable t states) (d.lines.map Line.shape) (startsFrom 0 texts d.endings))
    {index : Nat} (hindex : index < texts.length) {s : σ} (hs : states s) :
    ∃ s', states s' ∧ d.update t texts index s = .ok (rule.update texts index d, s') := by
  have hlen : d.lines.length = texts.length := by simpa using huse.length_eq
  have hstarts : lineStarts 0 texts d.endings = .ok (startsFrom 0 texts d.endings) :=
    lineStarts_eq_ok_iff.2 ⟨by simpa using hfit, rfl⟩
  have hnone : Reported t states none := ⟨_, ht.reset hs⟩
  obtain ⟨s₀, hs₀, hcontext⟩ := before_reported huse hnone index
  obtain ⟨hset, hrestored⟩ := ht.restore hs hs₀
  rw [hcontext] at hset hrestored
  have hroom : List.Forall₂ HasRoom (texts.drop index) ((startsFrom 0 texts d.endings).drop index) :=
    List.forall₂_drop index (startsFrom_hasRoom (by omega))
  have hreach : List.Forall₂ (fun line start => line.shape.Reaches start) (d.lines.drop index)
      ((startsFrom 0 texts d.endings).drop index) :=
    List.forall₂_drop index ((List.forall₂_map_left_iff.1 huse).imp fun _ _ h => h.1)
  obtain ⟨s', hs', hsettle⟩ := Document.settle_eq ht.toFollowsRule hroom hreach hset
    (Shape.before .null none (d.lines.map Line.shape) index).1
  rw [hrestored, List.map_drop] at hsettle
  refine ⟨s', hs', ?_⟩
  unfold Document.update
  rw [if_neg (Nat.not_le.2 hindex), if_neg (not_not.2 hlen), hstarts]
  simp only [bind, Except.bind, Document.continuationBefore_eq, Document.drop_slots, hsettle]
  rfl

end Linewise
