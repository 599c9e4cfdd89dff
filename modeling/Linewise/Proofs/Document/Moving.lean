import Linewise.Proofs.Document.Reanalysis
import Linewise.Proofs.Document.Rebuild

/-! Updates by tokenizers that put their tokens anywhere but whose analyses never fault. The tokens of a
line that is only moved count from the start of the line, modulo `2 ^ 64`, but they are added to its new
start without wrapping. So an update may still fault, and it does for a token that begins before its
line, unless the line stays where it is or comes to be close to the start of the text. -/
namespace Linewise

variable {σ : Type}

/-- In each of its `states` the tokenizer has a row for any text that has room. Nothing is said of the
tokens in it. -/
structure Total (t : Tokenizer σ) (states : σ → Prop) : Prop where
  analyze : ∀ {s : σ} {text : String} {start : Offset} (kind : Kind), states s →
    HasRoom text start →
      ∃ row s', states s' ∧ t.analyze (.whole text) kind start s = .ok (row, s')
  setContext : ∀ {s : σ} (context : Option Context), states s → states (t.setContext context s)

/-- A table has a row for every text, whatever its marks. -/
theorem Table.total (table : Table) :
    Total Traced.tokenizer fun s => ∃ row, s.current = .table table row where
  analyze := by
    rintro ⟨_, signals⟩ text start kind ⟨row, rfl⟩ -
    exact ⟨_, _, ⟨_, rfl⟩, rfl⟩
  setContext := by
    rintro ⟨_, signals⟩ context ⟨row, rfl⟩
    exact ⟨row, rfl⟩

/-- A line with a token that begins before it can be moved nowhere but to where it is, or so close to the
start of the text that the token would begin before that. -/
theorem Line.not_canMove {l : Line} {token : Token} (hmem : token ∈ l.tokens)
    (hbefore : token.span.start < l.start) {start : Offset} (hstart : start ≠ l.start)
    (hfar : l.start - token.span.start ≤ start) : ¬ l.CanMove start := by
  rintro (heq | hreaches)
  · exact hstart heq
  · have hroom : start.toNat + (token.span.start - l.start).toNat < UInt64.size :=
      (hreaches (token.relativeTo l.start) (List.mem_map_of_mem hmem)).1
    have hlt : token.span.start.toNat < l.start.toNat := UInt64.lt_iff_toNat_lt.1 hbefore
    have hsize : l.start.toNat < UInt64.size := l.start.toNat_lt_size
    -- The difference wraps, to what the distance back to the token lacks of `2 ^ 64`.
    have hdifference : (token.span.start - l.start).toNat =
        UInt64.size - (l.start.toNat - token.span.start.toNat) := by
      rw [UInt64.toNat_sub]
      change (UInt64.size - l.start.toNat + token.span.start.toNat) % UInt64.size = _
      rw [Nat.mod_eq_of_lt (by omega)]
      omega
    have hle : l.start.toNat - token.span.start.toNat ≤ start.toNat := by
      rw [← UInt64.toNat_sub_of_le _ _ (UInt64.le_of_lt hbefore)]
      exact UInt64.le_iff_toNat_le.1 hfar
    omega

namespace Total

variable {t : Tokenizer σ} {states : σ → Prop}

theorem line (ht : Total t states) {text : String} {start : Offset} (hroom : HasRoom text start)
    {s : σ} (hs : states s) (kind : Kind) :
    ∃ line s', states s' ∧ t.line text start kind s = .ok (line, s') := by
  obtain ⟨row, s', hs', hanalyze⟩ := ht.analyze kind hs hroom
  exact ⟨_, s', hs', bind_eq_ok_iff.2 ⟨_, hanalyze, rfl⟩⟩

theorem lines (ht : Total t states) {places : List (String × Offset)}
    (hroom : ∀ p ∈ places, HasRoom p.1 p.2) {s : σ} (hs : states s) (kind : Kind) :
    ∃ lines s', states s' ∧ t.lines places kind s = .ok (lines, s') := by
  induction places generalizing s kind with
  | nil => exact ⟨[], s, hs, rfl⟩
  | cons place rest ih =>
    obtain ⟨hfirst, hrest⟩ := List.forall_mem_cons.1 hroom
    obtain ⟨line, s₁, hs₁, hline⟩ := ht.line hfirst hs kind
    obtain ⟨lines, s₂, hs₂, hlines⟩ := ih hrest hs₁ line.continuation
    exact ⟨line :: lines, s₂, hs₂,
      bind_eq_ok_iff.2 ⟨_, hline, bind_eq_ok_iff.2 ⟨_, hlines, rfl⟩⟩⟩

/-- There is a document for all texts that end at an offset. -/
theorem build (ht : Total t states) {texts : List String} {endings : List Nat}
    (hfit : extent texts endings < UInt64.size) {s : σ} (hs : states s) :
    ∃ d s', Document.build t texts endings s = .ok (d, s') ∧ states s' ∧
      d.lines.length = texts.length ∧ d.endings = endings := by
  have hstarts : lineStarts 0 texts endings = .ok (startsFrom 0 texts endings) :=
    lineStarts_eq_ok_iff.2 ⟨by simpa using hfit, rfl⟩
  have hroom : ∀ p ∈ texts.zip (startsFrom 0 texts endings), HasRoom p.1 p.2 :=
    fun p hp => toNat_start_add_size_lt (by omega) hp
  obtain ⟨lines, s', hs', hlines⟩ := ht.lines hroom (ht.setContext none hs) .null
  have hbuild : Document.build t texts endings s = .ok (⟨lines, endings⟩, s') :=
    bind_eq_ok_iff.2 ⟨_, hstarts, bind_eq_ok_iff.2 ⟨_, hlines, rfl⟩⟩
  exact ⟨_, s', hbuild, hs', Document.length_lines_build hbuild, rfl⟩

theorem reanalyze (ht : Total t states) {slots : List Document.Slot}
    (hroom : ∀ slot ∈ slots, HasRoom slot.text slot.start) {s : σ} (hs : states s) (kind : Kind) :
    ∃ anew settled s', states s' ∧ Document.reanalyze t slots kind s = .ok (anew, settled, s') := by
  induction slots generalizing s kind with
  | nil => exact ⟨[], [], s, hs, rfl⟩
  | cons slot rest ih =>
    obtain ⟨hfirst, hrest⟩ := List.forall_mem_cons.1 hroom
    obtain ⟨line, s₁, hs₁, hline⟩ := ht.line hfirst hs kind
    by_cases hsame : slot.cached.sameShape line = true
    · refine ⟨[line], rest, s₁, hs₁, bind_eq_ok_iff.2 ⟨_, hline, ?_⟩⟩
      exact if_pos hsame
    · obtain ⟨anew, settled, s₂, hs₂, hlater⟩ := ih hrest hs₁ line.continuation
      refine ⟨line :: anew, settled, s₂, hs₂, bind_eq_ok_iff.2 ⟨_, hline, ?_⟩⟩
      simp only [if_neg hsame]
      exact bind_eq_ok_iff.2 ⟨_, hlater, rfl⟩

/-- Where no analysis faults, an update comes to its end unless a line that is only moved has no room
where it is moved to. A line that is moved keeps its shape: both ends of each of its tokens are moved as
far as its start is, modulo `2 ^ 64`. -/
theorem update_eq_ite (ht : Total t states) {d : Document} {texts : List String}
    (hlen : d.lines.length = texts.length) (hfit : extent texts d.endings < UInt64.size) {s : σ}
    (hs : states s) (index : Nat) :
    (texts.length ≤ index → d.update t texts index s = .ok (d, s)) ∧
      (index < texts.length → ∃ anew s', states s' ∧
        Document.Reanalyzed t ((d.places texts).drop index) (d.lines.drop index)
          (d.continuationBefore index).1 (t.setContext (d.continuationBefore index).2 s) anew s' ∧
        d.update t texts index s =
          (if d.CanMoveFrom texts (index + anew.length) then .ok (d.renew texts index anew, s')
            else .error .offsetOverflow) ∧
        ∀ j line start, index + anew.length ≤ j → d.lines[j]? = some line →
          (startsFrom 0 texts d.endings)[j]? = some start →
            (d.renew texts index anew).lines[j]? = some (line.moved start) ∧
              (line.moved start).shape = line.shape) := by
  refine ⟨fun hindex => Document.update_eq_self hindex s, fun hindex => ?_⟩
  have hroom : ∀ slot ∈ (Document.slots texts (startsFrom 0 texts d.endings) d.lines).drop index,
      HasRoom slot.text slot.start := by
    intro slot hslot
    have hplace : slot.place ∈ texts.zip (startsFrom 0 texts d.endings) := by
      rw [← Document.map_place_slots hlen]
      exact List.mem_map_of_mem (List.mem_of_mem_drop hslot)
    exact toNat_start_add_size_lt (by omega) hplace
  obtain ⟨anew, settled, s', hs', hrun⟩ :=
    ht.reanalyze hroom (ht.setContext (d.continuationBefore index).2 hs)
      (d.continuationBefore index).1
  obtain ⟨hspec, hupdate⟩ := Document.update_eq_of_reanalyzeFrom hlen hindex hfit hrun
  refine ⟨anew, s', hs', hspec, hupdate, fun j line start hj hline hstart => ?_⟩
  have hmove : (d.lines.zip (startsFrom 0 texts d.endings))[j]? = some (line, start) :=
    List.getElem?_zip_eq_some.2 ⟨hline, hstart⟩
  rw [Document.getElem?_lines_renew (by omega) hj, hmove]
  exact ⟨rfl, line.shape_moved start⟩

/-- The token of the second line is in its line, which is moved by a byte. -/
theorem update_eq_ite_table :
    let table : Table := ⟨[("b", [⟨0, 1, .text, none, true⟩])], []⟩
    let states := fun s : Traced => ∃ row, s.current = .table table row
    let s : Traced := .start (.table table .empty)
    ∃ d s₁ anew s₂, Document.ofLines Traced.tokenizer ["a", "b"] s = .ok (d, s₁) ∧ states s₁ ∧
      states s₂ ∧ d.update Traced.tokenizer ["aa", "b"] 0 s₁ =
        .ok (d.renew ["aa", "b"] 0 anew, s₂) ∧
      d.lines[1]? = some ⟨[⟨.text, ⟨2, 3⟩, none⟩], .text, none, 2⟩ ∧
      (d.renew ["aa", "b"] 0 anew).lines[1]? = some ⟨[⟨.text, ⟨3, 4⟩, none⟩], .text, none, 3⟩ := by
  intro table states s
  have ht : Total Traced.tokenizer states := Table.total table
  obtain ⟨d, s₁, hbuild, hs₁, hlen, hendings⟩ :
      ∃ d s₁, Document.ofLines Traced.tokenizer ["a", "b"] s = .ok (d, s₁) ∧ states s₁ ∧
        d.lines.length = ["aa", "b"].length ∧ d.endings = [1, 1] :=
    ht.build (by decide +kernel) ⟨_, rfl⟩
  have hfit : extent ["aa", "b"] d.endings < UInt64.size := by
    rw [hendings]
    decide +kernel
  obtain ⟨-, hmain⟩ := update_eq_ite ht hlen hfit hs₁ 0
  obtain ⟨anew, s₂, hs₂, -, hite, -⟩ := hmain Nat.zero_lt_two
  have hrun : (do
      let (d, s₁) ← Document.ofLines Traced.tokenizer ["a", "b"] s
      let (d', _) ← d.update Traced.tokenizer ["aa", "b"] 0 s₁
      return (d.lines[1]?, d'.lines[1]?)) =
        (.ok (some ⟨[⟨.text, ⟨2, 3⟩, none⟩], .text, none, 2⟩,
          some ⟨[⟨.text, ⟨3, 4⟩, none⟩], .text, none, 3⟩) : Except Fault _) := by
    decide +kernel
  have hrun := bind_of_eq_ok hbuild hrun
  obtain ⟨⟨d', s₂'⟩, hupdate, hrun⟩ := bind_eq_ok_iff.1 hrun
  obtain ⟨hbefore, hafter⟩ := Prod.mk.inj (pure_eq_ok_iff.1 hrun)
  have hite := hite.symm.trans hupdate
  split at hite
  next =>
    obtain ⟨rfl, rfl⟩ := Prod.mk.inj (Except.ok.inj hite)
    exact ⟨d, s₁, anew, s₂, hbuild, hs₁, hs₂, hupdate, hbefore, hafter⟩
  next => cases hite

end Total

/-- The token of the second line begins with the ending of the first. Its line cannot be moved, though
all lines have room. -/
theorem Table.update_overflows :
    let table : Table := ⟨[("b", [⟨0 - 1, 1, .text, none, true⟩])], []⟩
    let states := fun s : Traced => ∃ row, s.current = .table table row
    ∃ s d s₁, Total Traced.tokenizer states ∧ states s ∧
      Document.ofLines Traced.tokenizer ["a", "b"] s = .ok (d, s₁) ∧ states s₁ ∧
      d.lines.length = ["aa", "b"].length ∧ extent ["aa", "b"] d.endings < UInt64.size ∧
      d.update Traced.tokenizer ["aa", "b"] 0 s₁ = .error .offsetOverflow := by
  intro table states
  have ht : Total Traced.tokenizer states := Table.total table
  let s : Traced := .start (.table table .empty)
  have hs : states s := ⟨_, rfl⟩
  obtain ⟨d, s₁, hbuild, hs₁, hlen, hendings⟩ :
      ∃ d s₁, Document.ofLines Traced.tokenizer ["a", "b"] s = .ok (d, s₁) ∧ states s₁ ∧
        d.lines.length = ["aa", "b"].length ∧ d.endings = [1, 1] :=
    ht.build (by decide +kernel) hs
  have hfit : extent ["aa", "b"] d.endings < UInt64.size := by
    rw [hendings]
    decide +kernel
  have hrun : (do
      let (d, s₁) ← Document.ofLines Traced.tokenizer ["a", "b"] s
      return (d.update Traced.tokenizer ["aa", "b"] 0 s₁).map Prod.fst) =
        (.ok (.error .offsetOverflow) : Except Fault _) := by
    decide +kernel
  have hrun := bind_of_eq_ok hbuild hrun
  have hupdate := pure_eq_ok_iff.1 hrun
  refine ⟨s, d, s₁, ht, hs, hbuild, hs₁, hlen, hfit, ?_⟩
  cases hresult : d.update Traced.tokenizer ["aa", "b"] 0 s₁ with
  | ok result =>
    rw [hresult] at hupdate
    cases hupdate
  | error fault =>
    rw [hresult] at hupdate
    exact congrArg Except.error (Except.error.inj hupdate)

end Linewise
