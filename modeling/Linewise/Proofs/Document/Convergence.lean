import Linewise.Proofs.Document.Editing
import Linewise.Proofs.Document.Renewal

/-! How far an update reaches. Where a line hands on what it handed on before, the next line comes out as
it is cached, so that an update ends there at the latest. It ends one line earlier if the tokens of the
first one are the same too. -/
namespace Linewise

namespace Shape

/-- The kind and the context in which the next line starts. -/
def exit (x : Shape) : Kind × Option Context := (x.continuation, x.context)

/-- From `index` on, the line at `j` is the first after which the next line starts as before. -/
structure AgreesFirst (cached fresh : List Shape) (index j : Nat) : Prop where
  le : index ≤ j
  lt : j < cached.length
  exit_eq : cached[j]?.map exit = fresh[j]?.map exit
  exit_ne : ∀ k, index ≤ k → k < j → cached[k]?.map exit ≠ fresh[k]?.map exit

/-- The line at `last` is the first from `index` on that keeps its shape, or else the last of all. -/
structure StopsAt (cached fresh : List Shape) (index last : Nat) : Prop where
  le : index ≤ last
  lt : last < cached.length
  changed : ∀ k, index ≤ k → k < last → cached[k]? ≠ fresh[k]?
  kept : last + 1 < cached.length → cached[last]? = fresh[last]?

/-- What an update from `index` to `last` is by the first line after which all goes on as before. -/
structure Converges (cached fresh : List Shape) (index last : Nat) : Prop where
  le : index ≤ last
  lt : last < cached.length
  of_tokens_eq : ∀ j, AgreesFirst cached fresh index j →
    cached[j]?.map tokens = fresh[j]?.map tokens → last = j
  of_tokens_ne : ∀ j, AgreesFirst cached fresh index j →
    cached[j]?.map tokens ≠ fresh[j]?.map tokens → last = min (j + 1) (cached.length - 1)
  of_none : (∀ j, index ≤ j → j < cached.length → cached[j]?.map exit ≠ fresh[j]?.map exit) →
    last = cached.length - 1

variable {cached fresh : List Shape} {index last j : Nat}

theorem before_succ (kind : Kind) (context : Option Context) (xs : List Shape) (j : Nat) :
    before kind context xs (j + 1) = (xs[j]?.map exit).getD (.null, none) := by
  simp only [before]
  cases xs[j]? <;> rfl

theorem getElem?_eq_iff :
    cached[j]? = fresh[j]? ↔
      cached[j]?.map exit = fresh[j]?.map exit ∧ cached[j]?.map tokens = fresh[j]?.map tokens := by
  constructor
  · intro h
    rw [h]
    exact ⟨rfl, rfl⟩
  · rintro ⟨hexit, htokens⟩
    cases hx : cached[j]? with
    | none =>
      rw [hx] at hexit
      exact (Option.map_eq_none_iff.1 hexit.symm).symm
    | some x =>
      cases hy : fresh[j]? with
      | none => simp [hx, hy] at hexit
      | some y =>
        rw [hx, hy] at hexit htokens
        obtain ⟨hcontinuation, hcontext⟩ := Prod.mk.inj (Option.some.inj hexit)
        cases x
        cases y
        simp_all

/-- An update stops nowhere before the first agreement. -/
theorem StopsAt.le_of_agreesFirst (h : StopsAt cached fresh index last)
    (hj : AgreesFirst cached fresh index j) : j ≤ last := by
  by_contra hlt
  have hlast := hj.lt
  have hkept := h.kept (by omega)
  exact hj.exit_ne last h.le (by omega) (getElem?_eq_iff.1 hkept).1

theorem StopsAt.converges (h : StopsAt cached fresh index last)
    (hnext : ∀ j, index ≤ j → cached[j]?.map exit = fresh[j]?.map exit →
      cached[j + 1]? = fresh[j + 1]?) : Converges cached fresh index last where
  le := h.le
  lt := h.lt
  of_tokens_eq := by
    intro j hj htokens
    have hle := h.le_of_agreesFirst hj
    by_contra hne
    exact h.changed j hj.le (by omega) (getElem?_eq_iff.2 ⟨hj.exit_eq, htokens⟩)
  of_tokens_ne := by
    intro j hj htokens
    have hle := h.le_of_agreesFirst hj
    have hlast := h.lt
    have hj_ne : last + 1 < cached.length → last ≠ j := by
      rintro hlt rfl
      exact htokens (getElem?_eq_iff.1 (h.kept hlt)).2
    have hnext_le : last ≤ j + 1 := by
      by_contra hlt
      exact h.changed (j + 1) (by have := hj.le; omega) (by omega) (hnext j hj.le hj.exit_eq)
    omega
  of_none := by
    intro hnone
    by_contra hne
    have hlast := h.lt
    exact hnone last h.le hlast (getElem?_eq_iff.1 (h.kept (by omega))).1

end Shape

namespace Rule

/-- Each shape is that of its text after the shape before it. -/
theorem getElem?_shapes (rule : Rule) (texts : List String) (kind : Kind)
    (context : Option Context) (j : Nat) :
    (rule.shapes texts kind context)[j]? = texts[j]?.map fun text =>
      let (kind, context) := Shape.before kind context (rule.shapes texts kind context) j
      rule text kind context := by
  induction texts generalizing kind context j with
  | nil => rfl
  | cons text texts ih =>
    cases j with
    | zero => rfl
    | succ j =>
      unfold shapes
      rw [List.getElem?_cons_succ, List.getElem?_cons_succ, Shape.before_cons_succ]
      exact ih _ _ j

/-- After the text that has changed, a line is as it was if the line before it hands on the same. -/
theorem getElem?_succ_shapes (rule : Rule) {texts texts' : List String} {kind : Kind}
    {context : Option Context} {j : Nat} (htext : texts[j + 1]? = texts'[j + 1]?)
    (hexit : (rule.shapes texts kind context)[j]?.map Shape.exit =
      (rule.shapes texts' kind context)[j]?.map Shape.exit) :
    (rule.shapes texts kind context)[j + 1]? = (rule.shapes texts' kind context)[j + 1]? := by
  rw [getElem?_shapes, getElem?_shapes, htext, Shape.before_succ, Shape.before_succ, hexit]

end Rule

namespace Document

variable {σ : Type} {t : Tokenizer σ} {states : σ → Prop} {rule : Rule}

/-- The requests of an update that analyzes the lines from `index` to `last` of the texts and leaves the
document `d'`. -/
def updateRequests (d : Document) (texts : List String) (index last : Nat) (d' : Document) :
    List Request :=
  .setContext (d.continuationBefore index).2 ::
    lineRequests (((d.places texts).drop index).take (last + 1 - index))
      (d.continuationBefore index).1 ((d'.lines.drop index).take (last + 1 - index))

variable {d d' : Document} {texts : List String} {index : Nat}

theorem Renewed.getElem?_shape {anew : List Line} (h : Renewed d texts index anew d') {k : Nat}
    (hk : k < anew.length) :
    (d'.lines.map Line.shape)[index + k]? = anew[k]?.map Line.shape := by
  rw [List.getElem?_map, ← List.getElem?_drop, ← List.getElem?_take_of_lt hk, h.anew_eq]

theorem stopsAt_of_renewed {anew : List Line} {kind : Kind} {s s' : σ}
    (hanew : Reanalyzed t ((d.places texts).drop index) (d.lines.drop index) kind s anew s')
    (h : Renewed d texts index anew d') (hlen : d.lines.length = texts.length)
    (hindex : index < texts.length) :
    0 < anew.length ∧ Shape.StopsAt (d.lines.map Line.shape) (d'.lines.map Line.shape) index
      (index + (anew.length - 1)) := by
  have hlength : ((d.places texts).drop index).length = d.lines.length - index := by
    simp [places, hlen]
  have hpos : 0 < anew.length := hanew.length_pos (List.ne_nil_of_length_pos (by omega))
  have hle := hanew.length_le
  have hcached (k : Nat) :
      (d.lines.map Line.shape)[index + k]? = (d.lines.drop index)[k]?.map Line.shape := by
    rw [List.getElem?_map, List.getElem?_drop]
  refine ⟨hpos, Nat.le_add_right _ _, ?_, ?_, ?_⟩
  · rw [List.length_map]
    omega
  · intro k hk hlt
    obtain ⟨k, rfl⟩ := Nat.exists_eq_add_of_le hk
    rw [h.getElem?_shape (by omega), hcached]
    exact (hanew.changed k (by omega)).symm
  · intro hlt
    rw [List.length_map] at hlt
    rw [h.getElem?_shape (by omega), hcached]
    exact (hanew.kept (by omega) _ (by omega)).symm

/-- With any tokenizer an update analyzes the lines from `index` to the first that keeps its shape. -/
theorem stopsAt_of_update (hlen : d.lines.length = texts.length) (hindex : index < texts.length)
    {s s' : σ} (hrun : d.update t texts index s = .ok (d', s')) :
    ∃ last, Shape.StopsAt (d.lines.map Line.shape) (d'.lines.map Line.shape) index last ∧
      ∀ log, d.update t.observed texts index ⟨log, .ok s⟩ =
        .ok (d', ⟨log ++ d.updateRequests texts index last d', .ok s'⟩) := by
  obtain ⟨hfit, anew, settled, hanalysis, hroom, rfl⟩ :=
    exists_reanalyzeFrom_of_update hlen hindex hrun
  obtain ⟨hanew, -⟩ := update_eq_of_reanalyzeFrom hlen hindex hfit hanalysis
  have hrenewed := hanew.renewed hlen (Nat.le_of_lt hindex)
  obtain ⟨hpos, hstops⟩ := stopsAt_of_renewed hanew hrenewed hlen hindex
  refine ⟨_, hstops, fun log => ?_⟩
  have hcount : index + (anew.length - 1) + 1 - index = anew.length := by omega
  have hobserved := observed_reanalyzeFrom hlen hanalysis log
  rw [updateRequests, hcount, hrenewed.anew_eq,
    (update_eq_of_reanalyzeFrom hlen hindex hfit hobserved).2, if_pos hroom]

theorem exists_eq_set {texts' : List String} (hindex : index < texts.length)
    (hlen : texts'.length = texts.length) (hsame : ∀ i, i ≠ index → texts'[i]? = texts[i]?) :
    ∃ content, texts' = texts.set index content := by
  refine ⟨texts'.get ⟨index, hlen ▸ hindex⟩, List.ext_getElem? fun i => ?_⟩
  by_cases hi : i = index
  · rw [hi, List.getElem?_set_self hindex, List.get_eq_getElem, List.getElem?_eq_getElem]
  · rw [List.getElem?_set_ne (Ne.symm hi), hsame i hi]

/-- An update after a change of one line analyzes the lines from there to the first that hands on what it
handed on before, and one more line if the tokens of that one are other ones. -/
theorem update_converges (ht : LineLocal t states rule) {texts texts' : List String}
    {endings : List Nat} {index : Nat} (hindex : index < texts.length)
    (hlen : texts'.length = texts.length) (hsame : ∀ i, i ≠ index → texts'[i]? = texts[i]?)
    (hfit : extent texts endings < UInt64.size) (hfit' : extent texts' endings < UInt64.size)
    {s s₀ s₀' : σ} (hs : states s) (hs₀ : states s₀) (hs₀' : states s₀') :
    ∃ d s₁ fresh s₁' s' last,
      build t texts endings s₀ = .ok (d, s₁) ∧ build t texts' endings s₀' = .ok (fresh, s₁') ∧
      d.update t texts' index s = .ok (fresh, s') ∧
      (∀ log, d.update t.observed texts' index ⟨log, .ok s⟩ =
        .ok (fresh, ⟨log ++ d.updateRequests texts' index last fresh, .ok s'⟩)) ∧
      Shape.Converges (d.lines.map Line.shape) (fresh.lines.map Line.shape) index last ∧
      (texts' = texts → last = index ∧ fresh = d) := by
  obtain ⟨content, rfl⟩ := exists_eq_set hindex hlen hsame
  obtain ⟨s₁, -, hbuild⟩ := ht.build_eq hfit hs₀
  obtain ⟨s₁', -, hbuild'⟩ := ht.build_eq hfit' hs₀'
  obtain ⟨s', -, hrun⟩ := ht.update_document hindex hfit hfit' hs
  have hlines := (length_lines_build hbuild).trans hlen.symm
  obtain ⟨last, hstops, hobserved⟩ := stopsAt_of_update hlines (hlen ▸ hindex) hrun
  have hconverges := hstops.converges fun j hj hexit => by
    rw [Rule.map_shape_document, Rule.map_shape_document] at hexit ⊢
    exact rule.getElem?_succ_shapes (hsame (j + 1) (by omega)).symm hexit
  refine ⟨_, s₁, _, s₁', s', last, hbuild, hbuild', hrun, hobserved, hconverges, ?_⟩
  intro heq
  rw [heq] at hconverges ⊢
  have hfirst : Shape.AgreesFirst _ _ index index :=
    ⟨Nat.le_refl index, Nat.lt_of_le_of_lt hconverges.le hconverges.lt, rfl, fun k _ _ => by omega⟩
  exact ⟨hconverges.of_tokens_eq index hfirst rfl, rfl⟩

/-- The second of four lines gets other tokens and hands on the same, so that the third is the last. -/
theorem update_converges_parens :
    let before := ["(", "a", "b", "c"]
    let after := ["(", "a()", "b", "c"]
    let endings := [1, 1, 1, 1]
    let s : Traced := .start (Grammar.Parens.tokenizer "parens" 0)
    1 < before.length ∧ after.length = before.length ∧
      ∃ d s₁ fresh s₁' s', build Traced.tokenizer before endings s = .ok (d, s₁) ∧
        build Traced.tokenizer after endings s = .ok (fresh, s₁') ∧
        d.update Traced.tokenizer after 1 s = .ok (fresh, s') ∧
        Shape.Converges (d.lines.map Line.shape) (fresh.lines.map Line.shape) 1 2 := by
  intro before after endings s
  obtain ⟨rule, ht⟩ := (Grammar.Parens.tokenizer_steady "parens" 0).exists_lineLocal
  have hs : s.current.fresh = (Grammar.Parens.tokenizer "parens" 0).fresh := rfl
  have hsame : ∀ i, i ≠ 1 → after[i]? = before[i]? := by
    rintro (_ | _ | i) hi
    · rfl
    · exact absurd rfl hi
    · rfl
  have hindex : 1 < before.length := by decide
  obtain ⟨d, s₁, fresh, s₁', s', last, hbuild, hbuild', hrun, -, hconverges, -⟩ :=
    update_converges ht hindex (show after.length = before.length from rfl) hsame
      (show extent before endings < UInt64.size by decide +kernel) (by decide +kernel) hs hs hs
  have hshapes : (do
      let (d, _) ← build Traced.tokenizer before endings s
      let (fresh, _) ← build Traced.tokenizer after endings s
      let xs := d.lines.map Line.shape
      let ys := fresh.lines.map Line.shape
      return (xs.length, decide (xs[1]?.map Shape.exit = ys[1]?.map Shape.exit),
        decide (xs[1]?.map Shape.tokens = ys[1]?.map Shape.tokens))) =
          (.ok (4, true, false) : Except Fault _) := by
    decide +kernel
  simp only [hbuild, hbuild', bind, Except.bind, pure_eq_ok_iff, Prod.mk.injEq,
    decide_eq_true_eq, decide_eq_false_iff_not] at hshapes
  obtain ⟨hlen, hexit, htokens⟩ := hshapes
  have hfirst : Shape.AgreesFirst (d.lines.map Line.shape) (fresh.lines.map Line.shape) 1 1 :=
    ⟨Nat.le_refl 1, by omega, hexit, fun k _ _ => by omega⟩
  have hlast := hconverges.of_tokens_ne 1 hfirst htokens
  rw [hlen] at hlast
  obtain rfl : last = 2 := hlast
  exact ⟨hindex, rfl, d, s₁, fresh, s₁', s', hbuild, hbuild', hrun, hconverges⟩

end Document
end Linewise
