import Linewise.Token

/-! Tokens that partition a span: what they cover, what they pass, and what they take from the text. -/
namespace Linewise

variable {bounds : Span} {ts : List Token}

theorem isPartition_cons_iff {t : Token} :
    isPartition bounds (t :: ts) = true ↔ t.span.start = bounds.start ∧ t.span.Ordered ∧
      isPartition ⟨t.span.stop, bounds.stop⟩ ts = true := by
  simp [isPartition, and_assoc]

theorem validateTokens_cons_iff {t : Token} :
    validateTokens bounds (t :: ts) = true ↔ t.span.Ordered ∧ t.span.stop ≤ bounds.stop ∧
      bounds.start ≤ t.span.start ∧ validateTokens ⟨t.span.stop, bounds.stop⟩ ts = true := by
  simp [validateTokens, and_assoc]

theorem isPartition_le (h : isPartition bounds ts = true) : bounds.start ≤ bounds.stop := by
  induction ts generalizing bounds with
  | nil =>
    have heq : bounds.start = bounds.stop := by simpa [isPartition] using h
    rw [heq]
    exact UInt64.le_refl bounds.stop
  | cons t ts ih =>
    obtain ⟨hstart, hord, hrest⟩ := isPartition_cons_iff.1 h
    rw [← hstart]
    exact UInt64.le_trans hord (ih hrest)

/-- A list of tokens is a partition exactly if it can be cut into partitions of two adjoining spans. -/
theorem isPartition_append_iff {xs ys : List Token} :
    isPartition bounds (xs ++ ys) = true ↔
      ∃ cut, isPartition ⟨bounds.start, cut⟩ xs = true ∧
        isPartition ⟨cut, bounds.stop⟩ ys = true := by
  induction xs generalizing bounds with
  | nil => simp [isPartition]
  | cons t xs ih => simp only [List.cons_append, isPartition_cons_iff, ih, exists_and_left, and_assoc]

theorem start_eq_of_head? (h : isPartition bounds ts = true) {t : Token} (ht : ts.head? = some t) :
    t.span.start = bounds.start := by
  obtain ⟨rest, rfl⟩ := List.head?_eq_some_iff.1 ht
  exact (isPartition_cons_iff.1 h).1

theorem stop_eq_of_getLast? (h : isPartition bounds ts = true) {t : Token}
    (ht : ts.getLast? = some t) : t.span.stop = bounds.stop := by
  obtain ⟨before, rfl⟩ := List.getLast?_eq_some_iff.1 ht
  obtain ⟨cut, -, hlast⟩ := isPartition_append_iff.1 h
  obtain ⟨-, -, hend⟩ := isPartition_cons_iff.1 hlast
  simpa [isPartition] using hend

/-- The tokens of a partition cover what they partition. -/
theorem exists_mem_span_iff (h : isPartition bounds ts = true) (n : Nat) :
    (∃ t ∈ ts, n ∈ t.span) ↔ n ∈ bounds := by
  induction ts generalizing bounds with
  | nil =>
    have heq : bounds.start = bounds.stop := by simpa [isPartition] using h
    simp [Span.mem_def, heq]
  | cons t ts ih =>
    obtain ⟨hstart, hord, hrest⟩ := isPartition_cons_iff.1 h
    have hord' : t.span.start.toNat ≤ t.span.stop.toNat := UInt64.le_iff_toNat_le.1 hord
    have hle : t.span.stop.toNat ≤ bounds.stop.toNat :=
      UInt64.le_iff_toNat_le.1 (isPartition_le hrest)
    have htail := ih hrest
    simp only [List.mem_cons, exists_eq_or_imp, htail]
    simp only [Span.mem_def, hstart] at hord' ⊢
    omega

theorem validateTokens_of_le {start start' stop : Offset} (hle : start ≤ start')
    (h : validateTokens ⟨start', stop⟩ ts = true) : validateTokens ⟨start, stop⟩ ts = true := by
  cases ts with
  | nil => rfl
  | cons t ts =>
    obtain ⟨hord, hstop, hstart, hrest⟩ := validateTokens_cons_iff.1 h
    exact validateTokens_cons_iff.2 ⟨hord, hstop, UInt64.le_trans hle hstart, hrest⟩

/-- A partition is valid in wider bounds, and so are tokens after it. -/
theorem validateTokens_append {stop : Offset} {rest : List Token}
    (h : isPartition bounds ts = true) (hle : bounds.stop ≤ stop)
    (hrest : validateTokens ⟨bounds.stop, stop⟩ rest = true) :
    validateTokens ⟨bounds.start, stop⟩ (ts ++ rest) = true := by
  induction ts generalizing bounds with
  | nil =>
    have heq : bounds.start = bounds.stop := by simpa [isPartition] using h
    rwa [heq]
  | cons t ts ih =>
    obtain ⟨hstart, hord, htail⟩ := isPartition_cons_iff.1 h
    refine validateTokens_cons_iff.2 ⟨hord, ?_, ?_, ih htail hle hrest⟩
    · exact UInt64.le_trans (isPartition_le htail) hle
    · exact hstart ▸ UInt64.le_refl _

theorem extract_append_extract {bs : List UInt8} {a m b : Nat} (ham : a ≤ m) (hmb : m ≤ b) :
    bs.extract a m ++ bs.extract m b = bs.extract a b := by
  have hdrop : bs.drop m = (bs.drop a).drop (m - a) := by
    rw [List.drop_drop]
    congr 1
    omega
  have hsum : b - a = (m - a) + (b - m) := by omega
  rw [List.extract_eq_take_drop, List.extract_eq_take_drop, List.extract_eq_take_drop, hdrop, hsum,
    List.take_add]

def Token.bytes (t : Token) (bs : List UInt8) : List UInt8 :=
  bs.extract t.span.start.toNat t.span.stop.toNat

/-- Put together, the tokens of a partition have the bytes that they partition. -/
theorem flatMap_bytes_of_isPartition (h : isPartition bounds ts = true) (bs : List UInt8) :
    ts.flatMap (fun t => t.bytes bs) = bs.extract bounds.start.toNat bounds.stop.toNat := by
  induction ts generalizing bounds with
  | nil =>
    have heq : bounds.start = bounds.stop := by simpa [isPartition] using h
    simp [heq, List.extract_eq_take_drop]
  | cons t ts ih =>
    obtain ⟨hstart, hord, hrest⟩ := isPartition_cons_iff.1 h
    have hle := isPartition_le hrest
    rw [List.flatMap_cons, ih hrest, Token.bytes, hstart]
    unfold Span.Ordered at hord
    rw [hstart] at hord
    exact extract_append_extract (UInt64.le_iff_toNat_le.1 hord) (UInt64.le_iff_toNat_le.1 hle)

end Linewise
