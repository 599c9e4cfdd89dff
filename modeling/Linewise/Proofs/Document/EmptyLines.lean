import Linewise.Proofs.Document.Displacement
import Linewise.Proofs.Grammar

/-! Empty lines put in between the lines of a document. What one line hands on to the next, a kind and a
context, comes through them unchanged, so that all lines after them are only further on. -/
namespace Linewise

def insertEmpty (texts : List String) (p m : Nat) : List String :=
  texts.take p ++ List.replicate m "" ++ texts.drop p

namespace Rule

/-- An empty line that starts in the kind and the context has no tokens and hands both of them on. -/
def Idle (rule : Rule) (kind : Kind) (context : Option Context) : Prop :=
  rule "" kind context = ⟨[], kind, context⟩

/-- An empty line is idle at the start of a document and after any other line. -/
structure PassesEmpty (rule : Rule) : Prop where
  first : rule.Idle .null none
  next : ∀ (text : String) (kind : Kind) (context : Option Context),
    rule.Idle (rule text kind context).continuation (rule text kind context).context

variable {rule : Rule} {kind : Kind} {context : Option Context}

theorem shapes_replicate_append (h : rule.Idle kind context) (m : Nat) (texts : List String) :
    rule.shapes (List.replicate m "" ++ texts) kind context =
      List.replicate m ⟨[], kind, context⟩ ++ rule.shapes texts kind context := by
  unfold Idle at h
  induction m with
  | zero => rfl
  | succ m ih => simp only [List.replicate_succ, List.cons_append, shapes, h, ih]

/-- The shapes around the empty lines are those without them. -/
theorem shapes_insert (hrule : rule.PassesEmpty) (h : rule.Idle kind context) {texts : List String}
    {p : Nat} (hp : p ≤ texts.length) (m : Nat) :
    rule.shapes (insertEmpty texts p m) kind context =
      (rule.shapes texts kind context).take p ++
        List.replicate m ⟨[], (Shape.before kind context (rule.shapes texts kind context) p).1,
          (Shape.before kind context (rule.shapes texts kind context) p).2⟩ ++
        (rule.shapes texts kind context).drop p := by
  unfold insertEmpty
  -- Over the place: each line before it leaves a kind and a context that are idle again.
  induction p generalizing texts kind context with
  | zero => exact shapes_replicate_append h m texts
  | succ p ih =>
    cases texts with
    | nil => exact absurd hp (Nat.not_succ_le_zero p)
    | cons text texts =>
      have hrest := ih (hrule.next text kind context) (Nat.le_of_succ_le_succ hp)
      simp only [List.take_succ_cons, List.drop_succ_cons, List.cons_append, shapes,
        Shape.before_cons_succ, hrest]

theorem passesEmpty_plain : plain.PassesEmpty := ⟨rfl, fun _ _ _ => rfl⟩

theorem passesEmpty_whole : whole.PassesEmpty := ⟨rfl, fun _ _ _ => rfl⟩

/-- A line that no calls are made on keeps its kind and its context. -/
theorem passesEmpty_ofCalls {calls : String → Kind → Option Context → List Call}
    (h : ∀ kind context, calls "" kind context = []) : (ofCalls calls).PassesEmpty := by
  have hidle (kind : Kind) (context : Option Context) : (ofCalls calls).Idle kind context := by
    unfold Idle ofCalls
    rw [h]
    rfl
  exact ⟨hidle _ _, fun _ _ _ => hidle _ _⟩

end Rule

namespace Instance

/-- Where a line is means nothing to the tokenizer, and its grammar does nothing on an empty one. -/
def Quiet : Instance → Prop
  | .plain _ => True
  | .engine e => ∀ g, e.grammar = some g → ∃ calls, g.Steady e.languageIndex calls ∧
      ∀ kind context, calls "" kind context = []
  | .table _ _ => False

theorem Quiet.exists_lineLocal {i : Instance} (h : i.Quiet) :
    ∃ rule, LineLocal Traced.tokenizer (fun s => s.current.fresh = i.fresh) rule ∧
      rule.PassesEmpty := by
  cases i with
  | plain p => exact ⟨_, lineLocal_plain p, Rule.passesEmpty_plain⟩
  | engine e =>
    cases hgrammar : e.grammar with
    | none => exact ⟨_, lineLocal_of_none hgrammar, Rule.passesEmpty_whole⟩
    | some g =>
      rcases h g hgrammar with ⟨calls, hsteady, hempty⟩
      exact ⟨_, lineLocal_of_some hgrammar hsteady, Rule.passesEmpty_ofCalls hempty⟩
  | table t row => exact h.elim

end Instance

/-- The starts are as far apart as the first two of them. -/
theorem startsFrom_add {n m : Nat} {texts : List String} {endings : List Nat}
    (hfit : n + m + extent texts endings < UInt64.size) :
    List.Forall₂ (fun start start' => start'.toNat = start.toNat + m)
      (startsFrom n texts endings) (startsFrom (n + m) texts endings) := by
  induction texts generalizing n endings with
  | nil => exact .nil
  | cons text texts ih =>
    rw [extent_cons] at hfit
    unfold startsFrom
    constructor
    · rw [UInt64.toNat_ofNat_of_lt' (by omega), UInt64.toNat_ofNat_of_lt' (by omega)]
    · rw [Nat.add_right_comm]
      exact ih (by omega)

def unitExtent (texts : List String) : Nat := extent texts (texts.map fun _ => 1)

def unitStarts (n : Nat) (texts : List String) : List Offset := startsFrom n texts (texts.map fun _ => 1)

theorem unitExtent_eq (texts : List String) :
    unitExtent texts = (texts.map fun text => Text.size text.toList).sum + texts.length := by
  simp [unitExtent, extent_eq_sum]

@[simp] theorem length_unitStarts (n : Nat) (texts : List String) :
    (unitStarts n texts).length = texts.length :=
  length_startsFrom n texts _

theorem unitExtent_append (texts texts' : List String) :
    unitExtent (texts ++ texts') = unitExtent texts + unitExtent texts' := by
  unfold unitExtent
  rw [List.map_append, extent_append (List.length_map _)]

theorem unitStarts_append (n : Nat) (texts texts' : List String) :
    unitStarts n (texts ++ texts') = unitStarts n texts ++ unitStarts (n + unitExtent texts) texts' := by
  unfold unitStarts unitExtent
  rw [List.map_append, startsFrom_append n (List.length_map _)]

/-- Each empty line takes the byte of its ending. -/
theorem unitExtent_replicate_empty (m : Nat) : unitExtent (List.replicate m "") = m := by
  simp [unitExtent_eq]

theorem unitExtent_take_add_drop (texts : List String) (p : Nat) :
    unitExtent (texts.take p) + unitExtent (texts.drop p) = unitExtent texts := by
  rw [← unitExtent_append, List.take_append_drop]

theorem unitExtent_insertEmpty (texts : List String) (p m : Nat) :
    unitExtent (insertEmpty texts p m) = unitExtent texts + m := by
  unfold insertEmpty
  rw [unitExtent_append, unitExtent_append, unitExtent_replicate_empty,
    ← unitExtent_take_add_drop texts p, Nat.add_right_comm]

def placed (n : Nat) (xs : List Shape) (texts : List String) : List Line :=
  List.zipWith Shape.lineAt xs (unitStarts n texts)

theorem placed_append (n : Nat) {xs : List Shape} {texts : List String} (h : xs.length = texts.length)
    (ys : List Shape) (texts' : List String) :
    placed n (xs ++ ys) (texts ++ texts') =
      placed n xs texts ++ placed (n + unitExtent texts) ys texts' := by
  unfold placed
  rw [unitStarts_append]
  exact List.zipWith_append (h.trans (length_unitStarts _ _).symm)

theorem displaced_placed {n m : Nat} {xs : List Shape} {texts : List String}
    (hfit : n + m + unitExtent texts < UInt64.size)
    (hreach : List.Forall₂ Shape.Reaches xs (unitStarts (n + m) texts)) :
    List.Forall₂ (Line.Displaced m) (placed n xs texts) (placed (n + m) xs texts) :=
  displaced_zipWith hreach (startsFrom_add hfit)

section

variable {xs : List Shape} {texts : List String} {p : Nat}

/-- The lines up to a place, and those from there on. -/
theorem placed_eq_append (h : xs.length = texts.length) (p : Nat) :
    placed 0 xs texts = placed 0 (xs.take p) (texts.take p) ++
      placed (unitExtent (texts.take p)) (xs.drop p) (texts.drop p) := by
  have hlen : (xs.take p).length = (texts.take p).length := by simp [h]
  rw [← Nat.zero_add (unitExtent _), ← placed_append 0 hlen, List.take_append_drop,
    List.take_append_drop]

/-- The same lines with empty ones at the place. -/
theorem placed_insertEmpty (h : xs.length = texts.length) (p m : Nat) (x : Shape) :
    placed 0 (xs.take p ++ List.replicate m x ++ xs.drop p) (insertEmpty texts p m) =
      placed 0 (xs.take p) (texts.take p) ++
        placed (unitExtent (texts.take p)) (List.replicate m x) (List.replicate m "") ++
        placed (unitExtent (texts.take p) + m) (xs.drop p) (texts.drop p) := by
  have hlen : (xs.take p).length = (texts.take p).length := by simp [h]
  have hlen' : (xs.take p ++ List.replicate m x).length =
      (texts.take p ++ List.replicate m "").length := by simp [h]
  unfold insertEmpty
  rw [placed_append 0 hlen', placed_append 0 hlen, unitExtent_append, unitExtent_replicate_empty,
    Nat.zero_add, Nat.zero_add]

theorem drop_unitStarts_insertEmpty (hp : p ≤ texts.length) (m : Nat) :
    (unitStarts 0 (insertEmpty texts p m)).drop (p + m) =
      unitStarts (unitExtent (texts.take p) + m) (texts.drop p) := by
  unfold insertEmpty
  rw [unitStarts_append, unitExtent_append, unitExtent_replicate_empty, Nat.zero_add]
  apply List.drop_left'
  simp [hp]

end

/-- `d'` has the lines of `d` and `m` more before that at `p`. These have no tokens and hand on what
comes from the line before them, and those after them are further on by a byte for each. -/
structure Document.Inserted (d : Document) (p m : Nat) (d' : Document) : Prop where
  length_eq : d'.lines.length = d.lines.length + m
  before : d'.lines.take p = d.lines.take p
  empty : ∀ line ∈ (d'.lines.drop p).take m,
    line.tokens = [] ∧ (line.continuation, line.context) = d.continuationBefore p
  after : List.Forall₂ (Line.Displaced m) (d.lines.drop p) (d'.lines.drop (p + m))

theorem Document.Inserted.of_append {d d' : Document} {p m : Nat} {before empty after after' : List Line}
    (hd : d.lines = before ++ after) (hd' : d'.lines = before ++ empty ++ after')
    (hp : before.length = p) (hm : empty.length = m)
    (hempty : ∀ line ∈ empty,
      line.tokens = [] ∧ (line.continuation, line.context) = d.continuationBefore p)
    (hafter : List.Forall₂ (Line.Displaced m) after after') : d.Inserted p m d' := by
  have hlen : (before ++ empty).length = p + m := by rw [List.length_append, hp, hm]
  constructor
  · rw [hd, hd', List.length_append, hlen, List.length_append, hp, hafter.length_eq]
    omega
  · rw [hd, hd', List.append_assoc, List.take_left' hp, List.take_left' hp]
  · rwa [hd', List.append_assoc, List.drop_left' hp, List.take_left' hm]
  · rwa [hd, hd', List.drop_left' hp, List.drop_left' hlen]

variable {σ : Type} {t : Tokenizer σ} {states : σ → Prop} {rule : Rule}

theorem FollowsRule.inserted_document (ht : FollowsRule t states rule) (hrule : rule.PassesEmpty)
    {s : σ} (hs : states s) {texts : List String} {p m : Nat} (hp : p ≤ texts.length)
    (hfit : unitExtent (insertEmpty texts p m) < UInt64.size) :
    (rule.document texts (texts.map fun _ => 1)).Inserted p m
      (rule.document (insertEmpty texts p m) ((insertEmpty texts p m).map fun _ => 1)) := by
  let xs := rule.shapes texts .null none
  let x : Shape := ⟨[], (Shape.before .null none xs p).1, (Shape.before .null none xs p).2⟩
  have hlen : xs.length = texts.length := rule.length_shapes texts .null none
  have hshapes : rule.shapes (insertEmpty texts p m) .null none =
      xs.take p ++ List.replicate m x ++ xs.drop p := rule.shapes_insert hrule hrule.first hp m
  have hnew : (rule.document (insertEmpty texts p m)
      ((insertEmpty texts p m).map fun _ => 1)).lines = _ :=
    (congrArg (fun ys => placed 0 ys (insertEmpty texts p m)) hshapes).trans
      (placed_insertEmpty hlen p m x)
  apply Document.Inserted.of_append (placed_eq_append hlen p) hnew
  · simp [placed, hlen, hp]
  · simp [placed]
  · intro line hline
    rcases List.mem_iff_getElem?.1 hline with ⟨i, hi⟩
    rcases List.getElem?_zipWith_eq_some.1 hi with ⟨y, start, hy, -, rfl⟩
    have hyx : y = x := List.eq_of_mem_replicate (List.mem_of_getElem? hy)
    rw [hyx, Document.continuationBefore_eq, Rule.map_shape_document]
    exact ⟨rfl, rfl⟩
  · have hroom : List.Forall₂ HasRoom (insertEmpty texts p m) (unitStarts 0 (insertEmpty texts p m)) :=
      startsFrom_hasRoom (by rwa [Nat.zero_add])
    have huse := List.forall₂_drop (p + m) (ht.shapes_usable hroom ⟨_, ht.reset hs⟩ .null)
    rw [hshapes, drop_unitStarts_insertEmpty hp, List.drop_left' (by simp [hlen, hp])] at huse
    have hsum := unitExtent_take_add_drop texts p
    rw [unitExtent_insertEmpty] at hfit
    exact displaced_placed (by omega) (huse.imp fun _ _ h => h.1)

/-- Empty lines leave those before them as they are and those behind them only further on. They have no
tokens, and each hands on the kind and the context that it starts in. -/
theorem ofLines_insertEmpty {s s' : Traced} (h : s.current.Quiet)
    (hs' : s'.current.fresh = s.current.fresh) {texts : List String} {p m : Nat}
    (hp : p ≤ texts.length)
    (hfit : (texts.map fun text => Text.size text.toList).sum + texts.length + m < UInt64.size) :
    ∃ d s₁ d' s₁', Document.ofLines Traced.tokenizer texts s = .ok (d, s₁) ∧
      Document.ofLines Traced.tokenizer (insertEmpty texts p m) s' = .ok (d', s₁') ∧
      d.Inserted p m d' := by
  have hnew := unitExtent_insertEmpty texts p m
  rw [← unitExtent_eq, ← hnew] at hfit
  have hold : unitExtent texts < UInt64.size := by omega
  rcases h.exists_lineLocal with ⟨rule, ht, hrule⟩
  rcases ht.toFollowsRule.build_eq hold rfl with ⟨s₁, -, hbuild⟩
  rcases ht.toFollowsRule.build_eq hfit hs' with ⟨s₁', -, hbuild'⟩
  exact ⟨_, s₁, _, s₁', hbuild, hbuild', ht.toFollowsRule.inserted_document hrule hs' hp hfit⟩

/-- The first line leaves a stretch open, which the two empty lines hand on to the last one. -/
theorem ofLines_insertEmpty_template :
    let s : Traced := .start (Grammar.Template.tokenizer "template" 0)
    let texts := ["a<%b", "c%>d"]
    ∃ d s₁ d' s₁', Document.ofLines Traced.tokenizer texts s = .ok (d, s₁) ∧
      Document.ofLines Traced.tokenizer ["a<%b", "", "", "c%>d"] s = .ok (d', s₁') ∧
      d.Inserted 1 2 d' ∧ d.continuationBefore 1 = (.internal 1, some (.embedded 1 0)) := by
  intro s texts
  have hquiet : s.current.Quiet := by
    intro g hg
    obtain rfl : g = _ := (Option.some.inj hg).symm
    exact ⟨_, Grammar.Template.steady "template" 0, fun _ context =>
      Grammar.Template.scanCalls_empty context⟩
  have hsame : s.current.fresh = s.current.fresh := rfl
  have hp : 1 ≤ texts.length := by decide
  rcases ofLines_insertEmpty (m := 2) hquiet hsame hp (by decide +kernel) with
    ⟨d, s₁, d', s₁', hbuild, hbuild', hinserted⟩
  have hbefore : (Document.ofLines Traced.tokenizer texts s).map
      (fun p => p.1.continuationBefore 1) = .ok (.internal 1, some (.embedded 1 0)) := by
    decide +kernel
  rw [hbuild] at hbefore
  exact ⟨d, s₁, d', s₁', hbuild, hbuild', hinserted, Except.ok.inj hbefore⟩

end Linewise
