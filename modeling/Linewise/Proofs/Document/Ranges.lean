import Linewise.Document
import Linewise.Proofs.Tokenizer.Tiling

/-! The tokens of a line that a range asks for. Each token is held against the range by itself, but as
the tokens of a line stand in order without a gap, those that are found stand together, and they reach
as far as the range and the line both do. -/
namespace Linewise

namespace Span

variable {s t : Span}

theorem overlaps_iff : s.overlaps t = true ↔ s.start < t.stop ∧ t.start < s.stop := by
  simp [overlaps]

/-- Spans with something in them overlap exactly if they share a byte. -/
theorem overlaps_iff_exists_mem (hs : s.start < s.stop) (ht : t.start < t.stop) :
    s.overlaps t = true ↔ ∃ n, n ∈ s ∧ n ∈ t := by
  rw [UInt64.lt_iff_toNat_lt] at hs ht
  simp only [overlaps_iff, UInt64.lt_iff_toNat_lt, mem_def]
  constructor
  · rintro ⟨hleft, hright⟩
    use max s.start.toNat t.start.toNat
    omega
  · rintro ⟨n, hn⟩
    omega

end Span

variable {bounds range : Span} {ts : List Token}

/-- A partition into tokens that end before `o` ends before `o`, unless there is nothing in it. -/
theorem stop_le_max {o : Offset} (h : isPartition bounds ts = true)
    (hts : ∀ t ∈ ts, t.span.stop ≤ o) : bounds.stop.toNat ≤ max bounds.start.toNat o.toNat := by
  cases hlast : ts.getLast? with
  | none =>
    rw [List.getLast?_eq_none_iff.1 hlast] at h
    have heq : bounds.start = bounds.stop := by simpa [isPartition] using h
    rw [heq]
    exact Nat.le_max_left _ _
  | some t =>
    have hle := UInt64.le_iff_toNat_le.1 (hts t (List.mem_of_getLast? hlast))
    rw [← stop_eq_of_getLast? h hlast]
    exact Nat.le_trans hle (Nat.le_max_right _ _)

theorem min_le_start {o : Offset} (h : isPartition bounds ts = true)
    (hts : ∀ t ∈ ts, o ≤ t.span.start) : min bounds.stop.toNat o.toNat ≤ bounds.start.toNat := by
  cases hfirst : ts.head? with
  | none =>
    rw [List.head?_eq_none_iff.1 hfirst] at h
    have heq : bounds.start = bounds.stop := by simpa [isPartition] using h
    rw [heq]
    exact Nat.min_le_left _ _
  | some t =>
    have hle := UInt64.le_iff_toNat_le.1 (hts t (List.mem_of_head? hfirst))
    rw [← start_eq_of_head? h hfirst]
    exact Nat.le_trans (Nat.min_le_right _ _) hle

/-- Of tokens in order, the ones before those that overlap the range end before it, and the ones behind
begin behind it. -/
theorem Apart.exists_eq_append (h : Apart bounds ts) (range : Span) :
    ∃ before behind, ts = before ++ (ts.filter fun t => t.span.overlaps range) ++ behind ∧
      (∀ t ∈ before, t.span.stop ≤ range.start) ∧ ∀ t ∈ behind, range.stop ≤ t.span.start := by
  induction ts generalizing bounds with
  | nil => exact ⟨[], [], rfl, by simp, by simp⟩
  | cons t ts ih =>
    obtain ⟨hord, -, -, hrest⟩ := apart_cons_iff.1 h
    obtain ⟨before, behind, hsplit, hbefore, hbehind⟩ := ih hrest
    have hlater (u : Token) (hu : u ∈ ts) : t.span.stop ≤ u.span.start := (hrest.within u hu).1
    by_cases hends : t.span.stop ≤ range.start
    · have hout : t.span.overlaps range = false := by simp [Span.overlaps, UInt64.not_lt.2 hends]
      refine ⟨t :: before, behind, ?_, List.forall_mem_cons.2 ⟨hends, hbefore⟩, hbehind⟩
      simpa [List.filter_cons, hout] using hsplit
    · by_cases hbegins : range.stop ≤ t.span.start
      · have hall : ∀ u ∈ t :: ts, range.stop ≤ u.span.start :=
          List.forall_mem_cons.2 ⟨hbegins, fun u hu =>
            UInt64.le_trans hbegins (UInt64.le_trans hord (hlater u hu))⟩
        have hnone : (t :: ts).filter (fun u => u.span.overlaps range) = [] :=
          List.filter_eq_nil_iff.2 fun u hu => by simp [Span.overlaps, UInt64.not_lt.2 (hall u hu)]
        exact ⟨[], t :: ts, by simp [hnone], by simp, hall⟩
      · have hin : t.span.overlaps range = true :=
          Span.overlaps_iff.2 ⟨UInt64.not_le.1 hbegins, UInt64.not_le.1 hends⟩
        have hnil : before = [] := by
          refine List.eq_nil_iff_forall_not_mem.2 fun u hu => hends ?_
          have hmem : u ∈ ts := by
            rw [hsplit]
            simp [hu]
          exact UInt64.le_trans (hlater u hmem)
            (UInt64.le_trans (hrest.ordered u hmem) (hbefore u hu))
        subst hnil
        refine ⟨[], behind, ?_, by simp, hbehind⟩
        simpa [List.filter_cons, hin] using hsplit

/-- What it takes to draw the part of a line that lies in the range: `found` is a run of the line's
tokens, from the one with the first byte of that part to the one with the last. It leaves no byte of the
part out, and it has no token that is not needed. -/
structure Draws (range bounds : Span) (ts found : List Token) : Prop where
  consecutive : found <:+: ts
  reaches : ∃ first last, found.head? = some first ∧ found.getLast? = some last ∧
    max range.start.toNat bounds.start.toNat ∈ first.span ∧
    min range.stop.toNat bounds.stop.toNat - 1 ∈ last.span ∧
    isPartition ⟨first.span.start, last.span.stop⟩ found = true
  coveredOnce : ∀ n, n ∈ range → n ∈ bounds → CoveredOnce found n
  needed : ∀ t ∈ found, ∃ n, n ∈ t.span ∧ n ∈ range

section Partition

variable (hpart : isPartition bounds ts = true) (hfull : ∀ t ∈ ts, t.span.start < t.span.stop)
  (hrange : range.start < range.stop)
include hpart hfull hrange

theorem filter_overlaps_eq_nil (hapart : ∀ n, n ∈ range → n ∉ bounds) :
    (ts.filter fun t => t.span.overlaps range) = [] := by
  refine List.filter_eq_nil_iff.2 fun t ht hover => ?_
  obtain ⟨n, hn, hmem⟩ := (Span.overlaps_iff_exists_mem (hfull t ht) hrange).1 hover
  exact hapart n hmem ((exists_mem_span_iff hpart n).1 ⟨t, ht, hn⟩)

theorem draws_filter_overlaps (hshare : ∃ n, n ∈ range ∧ n ∈ bounds) :
    Draws range bounds ts (ts.filter fun t => t.span.overlaps range) := by
  obtain ⟨before, behind, hsplit, hbefore, hbehind⟩ :=
    (apart_of_isPartition hpart).exists_eq_append range
  have hover (t : Token) (ht : t ∈ ts.filter fun t => t.span.overlaps range) :
      t ∈ ts ∧ t.span.start < range.stop ∧ range.start < t.span.stop := by
    rwa [List.mem_filter, Span.overlaps_iff] at ht
  generalize (ts.filter fun t => t.span.overlaps range) = found at hsplit hover ⊢
  rw [hsplit, List.append_assoc, isPartition_append_iff] at hpart
  obtain ⟨left, hpbefore, hpart⟩ := hpart
  obtain ⟨right, hpfound, hpbehind⟩ := isPartition_append_iff.1 hpart
  have hfrom := stop_le_max hpbefore hbefore
  have hto := min_le_start hpbehind hbehind
  have hleft := UInt64.le_iff_toNat_le.1 (isPartition_le hpbefore)
  have hright := UInt64.le_iff_toNat_le.1 (isPartition_le hpbehind)
  dsimp only at hfrom hto hleft hright
  have hcover (n : Nat) (hn : n ∈ range) (hn' : n ∈ bounds) : ∃ t ∈ found, n ∈ t.span := by
    rw [exists_mem_span_iff hpfound]
    simp only [Span.mem_def] at hn hn' ⊢
    omega
  obtain ⟨shared, hin, hin'⟩ := hshare
  obtain ⟨t, ht, -⟩ := hcover shared hin hin'
  have hne : found ≠ [] := List.ne_nil_of_mem ht
  obtain ⟨first, hfirst⟩ := Option.isSome_iff_exists.1 (List.isSome_head?.2 hne)
  obtain ⟨last, hlast⟩ := Option.isSome_iff_exists.1 (List.getLast?_isSome.2 hne)
  have hbegin : first.span.start = left := start_eq_of_head? hpfound hfirst
  have hend : last.span.stop = right := stop_eq_of_getLast? hpfound hlast
  obtain ⟨hfirstMem, hfirstOver⟩ := hover first (List.mem_of_head? hfirst)
  obtain ⟨hlastMem, hlastOver⟩ := hover last (List.mem_of_getLast? hlast)
  have hfirstFull := hfull first hfirstMem
  have hlastFull := hfull last hlastMem
  refine ⟨⟨before, behind, hsplit.symm⟩, ⟨first, last, hfirst, hlast, ?_, ?_, ?_⟩, ?_, ?_⟩
  · simp only [UInt64.lt_iff_toNat_lt, hbegin] at hfirstOver hfirstFull
    rw [Span.mem_def, hbegin]
    omega
  · simp only [UInt64.lt_iff_toNat_lt, hend] at hlastOver hlastFull
    simp only [Span.mem_def, hend] at hin hin' ⊢
    omega
  · rwa [hbegin, hend]
  · intro n hn hn'
    exact (apart_of_isPartition hpfound).coveredOnce_iff.2 (hcover n hn hn')
  · intro t ht
    obtain ⟨hmem, hreach⟩ := hover t ht
    exact (Span.overlaps_iff_exists_mem (hfull t hmem) hrange).1 (Span.overlaps_iff.2 hreach)

end Partition

theorem Document.tokensInRange_eq {d : Document} {index : Nat} {line : Line}
    (h : d.lines[index]? = some line) (range : Span) :
    d.tokensInRange index range = line.tokens.filter fun t => t.span.overlaps range := by
  rw [tokensInRange, h]
  rfl

/-- Where the tokens of a line partition it and none is empty, a range gets the tokens that it takes to
draw what the range and the line share, and none if they share nothing. A line that is not there has no
tokens to draw. -/
theorem Document.tokensInRange_draws (d : Document) (index : Nat) (range : Span) :
    (d.lines.length ≤ index → d.tokensInRange index range = []) ∧
      ∀ line bounds, d.lines[index]? = some line → isPartition bounds line.tokens = true →
        (∀ t ∈ line.tokens, t.span.start < t.span.stop) → range.start < range.stop →
          ((∀ n, n ∈ range → n ∉ bounds) → d.tokensInRange index range = []) ∧
            ((∃ n, n ∈ range ∧ n ∈ bounds) →
              Draws range bounds line.tokens (d.tokensInRange index range)) := by
  constructor
  · intro hpast
    rw [tokensInRange, List.getElem?_eq_none hpast]
  · intro line bounds hline hpart hfull hrange
    rw [tokensInRange_eq hline]
    exact ⟨filter_overlaps_eq_nil hpart hfull hrange, draws_filter_overlaps hpart hfull hrange⟩

/-- The range begins where the second token does and ends inside of the last one. It touches the first
token, which is not drawn. -/
theorem Document.tokensInRange_draws_touching :
    let ts : List Token :=
      [⟨.keyword, ⟨4, 6⟩, none⟩, ⟨.text, ⟨6, 9⟩, some 1⟩, ⟨.string, ⟨9, 12⟩, none⟩]
    let d : Document := ⟨[⟨[], .null, none, 0⟩, ⟨ts, .string, none, 4⟩], [4, 0]⟩
    d.tokensInRange 1 ⟨6, 10⟩ = ts.drop 1 ∧
      Draws ⟨6, 10⟩ ⟨4, 12⟩ ts (d.tokensInRange 1 ⟨6, 10⟩) ∧
      d.tokensInRange 1 ⟨12, 15⟩ = [] ∧ d.tokensInRange 2 ⟨6, 10⟩ = [] := by
  intro ts d
  have hpart : isPartition ⟨4, 12⟩ ts = true := by decide
  have hfull : ∀ t ∈ ts, t.span.start < t.span.stop := by decide
  have hinside := (d.tokensInRange_draws 1 ⟨6, 10⟩).2 _ ⟨4, 12⟩ rfl hpart hfull (by decide)
  have hbehind := (d.tokensInRange_draws 1 ⟨12, 15⟩).2 _ ⟨4, 12⟩ rfl hpart hfull (by decide)
  refine ⟨by decide, hinside.2 ⟨6, ⟨by decide, by decide⟩, by decide, by decide⟩, hbehind.1 ?_, ?_⟩
  · rintro n ⟨hge, -⟩ ⟨-, hlt⟩
    exact absurd hlt (Nat.not_lt.2 hge)
  · exact (d.tokensInRange_draws 2 ⟨6, 10⟩).1 (by decide)

end Linewise
