import Linewise.Proofs.Tokenizer.Partition
import Mathlib.Data.List.Pairwise

/-! The two checks on a list of tokens, by all pairs of its tokens and all bytes of the bounds. A check
only holds each token to the end of the one before it. That is enough, as the end never goes back: the
first byte behind it belongs to the next token or to none. -/
namespace Linewise

/-- Each token is ordered and within the bounds, and none ends after the start of any later one. -/
structure Apart (bounds : Span) (ts : List Token) : Prop where
  ordered : ∀ t ∈ ts, t.span.Ordered
  within : ∀ t ∈ ts, bounds.start ≤ t.span.start ∧ t.span.stop ≤ bounds.stop
  pairwise : ts.Pairwise fun t u => t.span.stop ≤ u.span.start

/-- The token at one position covers byte `n`, and that at no other does. -/
def CoveredOnce (ts : List Token) (n : Nat) : Prop :=
  ∃! i : Nat, ∃ t : Token, ts[i]? = some t ∧ n ∈ t.span

variable {bounds : Span} {ts : List Token}

theorem apart_cons_iff {t : Token} :
    Apart bounds (t :: ts) ↔ t.span.Ordered ∧ t.span.stop ≤ bounds.stop ∧
      bounds.start ≤ t.span.start ∧ Apart ⟨t.span.stop, bounds.stop⟩ ts := by
  constructor
  · intro h
    have hfirst := h.within t List.mem_cons_self
    have hlater := List.pairwise_cons.1 h.pairwise
    exact ⟨h.ordered t List.mem_cons_self, hfirst.2, hfirst.1,
      fun u hu => h.ordered u (List.mem_cons_of_mem t hu),
      fun u hu => ⟨hlater.1 u hu, (h.within u (List.mem_cons_of_mem t hu)).2⟩, hlater.2⟩
  · rintro ⟨hord, hstop, hstart, hrest⟩
    have hlater (u : Token) (hu : u ∈ ts) : bounds.start ≤ u.span.start :=
      UInt64.le_trans hstart (UInt64.le_trans hord (hrest.within u hu).1)
    constructor
    · exact List.forall_mem_cons.2 ⟨hord, hrest.ordered⟩
    · exact List.forall_mem_cons.2
        ⟨⟨hstart, hstop⟩, fun u hu => ⟨hlater u hu, (hrest.within u hu).2⟩⟩
    · exact List.pairwise_cons.2 ⟨fun u hu => (hrest.within u hu).1, hrest.pairwise⟩

theorem validateTokens_iff_apart : validateTokens bounds ts = true ↔ Apart bounds ts := by
  induction ts generalizing bounds with
  | nil => simp [validateTokens, Apart.mk]
  | cons t ts ih => rw [validateTokens_cons_iff, apart_cons_iff, ih]

theorem apart_of_isPartition (h : isPartition bounds ts = true) : Apart bounds ts := by
  have hvalid := validateTokens_append h (UInt64.le_refl _) (show validateTokens _ [] = true from rfl)
  rw [List.append_nil] at hvalid
  exact validateTokens_iff_apart.1 hvalid

namespace Apart

/-- No byte is covered at two positions. -/
theorem position_unique (h : Apart bounds ts) {n i j : Nat} {t u : Token} (hi : ts[i]? = some t)
    (hj : ts[j]? = some u) (ht : n ∈ t.span) (hu : n ∈ u.span) : i = j := by
  rcases List.getElem?_eq_some_iff.1 hi with ⟨hilt, rfl⟩
  rcases List.getElem?_eq_some_iff.1 hj with ⟨hjlt, rfl⟩
  have hpairs := List.pairwise_iff_getElem.1 h.pairwise
  rw [Span.mem_def] at ht hu
  rcases Nat.lt_trichotomy i j with hlt | heq | hgt
  · have hle := UInt64.le_iff_toNat_le.1 (hpairs i j hilt hjlt hlt)
    omega
  · exact heq
  · have hle := UInt64.le_iff_toNat_le.1 (hpairs j i hjlt hilt hgt)
    omega

theorem coveredOnce_iff (h : Apart bounds ts) {n : Nat} :
    CoveredOnce ts n ↔ ∃ t ∈ ts, n ∈ t.span := by
  unfold CoveredOnce
  constructor
  · rintro ⟨i, ⟨t, ht, hn⟩, -⟩
    exact ⟨t, List.mem_of_getElem? ht, hn⟩
  · rintro ⟨t, ht, hn⟩
    rcases List.mem_iff_getElem?.1 ht with ⟨i, hi⟩
    refine ⟨i, ⟨t, hi, hn⟩, ?_⟩
    rintro j ⟨u, hj, hu⟩
    exact h.position_unique hj hi hu hn

/-- If every byte is covered, the first token begins where the bounds do. -/
theorem start_eq {t : Token} (h : Apart bounds (t :: ts))
    (hcover : ∀ n ∈ bounds, ∃ u ∈ t :: ts, n ∈ u.span) : t.span.start = bounds.start := by
  rcases apart_cons_iff.1 h with ⟨hord, hstop, hstart, hrest⟩
  have hord' := UInt64.le_iff_toNat_le.1 hord
  have hstop' := UInt64.le_iff_toNat_le.1 hstop
  have hstart' := UInt64.le_iff_toNat_le.1 hstart
  by_contra hne
  have hlt : bounds.start.toNat < t.span.start.toNat :=
    Nat.lt_of_le_of_ne hstart' fun heq => hne (UInt64.toNat_inj.1 heq.symm)
  rcases hcover bounds.start.toNat ⟨Nat.le_refl _, by omega⟩ with ⟨u, hu, hmem⟩
  have hle := hmem.1
  rcases List.mem_cons.1 hu with rfl | hu
  · omega
  · have hlater : t.span.stop.toNat ≤ u.span.start.toNat :=
      UInt64.le_iff_toNat_le.1 (hrest.within u hu).1
    omega

theorem isPartition (h : Apart bounds ts) (hbounds : bounds.Ordered)
    (hcover : ∀ n ∈ bounds, ∃ t ∈ ts, n ∈ t.span) : isPartition bounds ts = true := by
  induction ts generalizing bounds with
  | nil =>
    have hle : bounds.start.toNat ≤ bounds.stop.toNat := UInt64.le_iff_toNat_le.1 hbounds
    have hnone : ¬ bounds.start.toNat < bounds.stop.toNat := by
      intro hlt
      simpa using hcover bounds.start.toNat ⟨Nat.le_refl _, hlt⟩
    have heq : bounds.start = bounds.stop := UInt64.toNat_inj.1 (by omega)
    simp [Linewise.isPartition, heq]
  | cons t ts ih =>
    have hstart := h.start_eq hcover
    rcases apart_cons_iff.1 h with ⟨hord, hstop, -, hrest⟩
    rw [isPartition_cons_iff]
    use hstart, hord
    apply ih hrest hstop
    rintro n ⟨hge, hlt⟩
    have hord' : t.span.start.toNat ≤ t.span.stop.toNat := UInt64.le_iff_toNat_le.1 hord
    rcases hcover n ⟨by rw [← hstart]; exact Nat.le_trans hord' hge, hlt⟩ with ⟨u, hu, hmem⟩
    rcases List.mem_cons.1 hu with rfl | hu
    · exact absurd hmem.2 (Nat.not_lt.2 hge)
    · exact ⟨u, hu, hmem⟩

end Apart

/-- Tokens are valid when they are apart, and they are a partition of ordered bounds when they are
valid besides covering each byte of the bounds at one position. -/
theorem validateTokens_isPartition_iff (bounds : Span) (ts : List Token) :
    (validateTokens bounds ts = true ↔ Apart bounds ts) ∧
      (bounds.Ordered → (isPartition bounds ts = true ↔
        validateTokens bounds ts = true ∧ ∀ n ∈ bounds, CoveredOnce ts n)) := by
  use validateTokens_iff_apart
  intro hbounds
  constructor
  · intro h
    have hvalid := validateTokens_append h (UInt64.le_refl _) (show validateTokens _ [] = true from rfl)
    rw [List.append_nil] at hvalid
    use hvalid
    intro n hn
    rw [(validateTokens_iff_apart.1 hvalid).coveredOnce_iff, exists_mem_span_iff h]
    exact hn
  · rintro ⟨hvalid, hcover⟩
    have hapart := validateTokens_iff_apart.1 hvalid
    apply hapart.isPartition hbounds
    intro n hn
    exact hapart.coveredOnce_iff.1 (hcover n hn)

/-- An empty token between two others leaves each byte covered once, which is not so without the first
of the three. -/
theorem validateTokens_isPartition_iff_empty :
    let bounds : Span := ⟨2, 7⟩
    let first : Token := ⟨.text, ⟨2, 4⟩, none⟩
    let rest : List Token := [⟨.null, ⟨4, 4⟩, none⟩, ⟨.string, ⟨4, 7⟩, some 1⟩]
    bounds.Ordered ∧ Apart bounds (first :: rest) ∧ (∀ n ∈ bounds, CoveredOnce (first :: rest) n) ∧
      Apart bounds rest ∧ ¬ ∀ n ∈ bounds, CoveredOnce rest n := by
  intro bounds first rest
  have hbounds : bounds.Ordered := by decide
  have hall := validateTokens_isPartition_iff bounds (first :: rest)
  have hrest := validateTokens_isPartition_iff bounds rest
  have hvalid : validateTokens bounds rest = true := by decide
  have hgap : isPartition bounds rest = false := by decide
  use hbounds, hall.1.1 (by decide), ((hall.2 hbounds).1 (by decide)).2, hrest.1.1 hvalid
  intro hcover
  rw [(hrest.2 hbounds).2 ⟨hvalid, hcover⟩] at hgap
  exact Bool.noConfusion hgap

end Linewise
