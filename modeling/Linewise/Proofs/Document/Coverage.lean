import Linewise.Proofs.Grammar
import Linewise.Proofs.Text.Terminators
import Linewise.Proofs.Tokenizer.Partitioning

/-! The tokens of a whole text. When those of each line partition the line, together they take every
byte of the text exactly once, but for the bytes that end lines. -/
namespace Linewise
open TextLine

/-- The tokens line by line: they partition the lines, they are valid in the whole text, they leave
out only the bytes that end lines, and together with these they make up the text. -/
structure Covers (text : String) (parts : List (List Token)) : Prop where
  partition : PartitionEach (Segment.lines text) parts
  valid : validateTokens ⟨0, .ofNat (Text.size text.toList)⟩ parts.flatten = true
  uncovered : ∀ {n : Nat} {b : UInt8}, (Text.bytes text.toList)[n]? = some b →
    ((∀ t ∈ parts.flatten, n ∉ t.span) ↔ b = 10 ∨ b = 13)
  bytes_eq : (List.zipWith (fun tokens (l : TextLine) =>
    tokens.flatMap (fun t => t.bytes (Text.bytes text.toList)) ++ Text.bytes l.ending.text)
      parts (split text.toList)).flatten = Text.bytes text.toList

theorem validateTokens_place {buffer : String} {start : Nat} {ls : List TextLine}
    {parts : List (List Token)} {stop : Offset} (hfit : start + Text.size (join ls) ≤ stop.toNat)
    (h : PartitionEach (Segment.place buffer start ls) parts) :
    validateTokens ⟨.ofNat start, stop⟩ parts.flatten = true := by
  have hsize := stop.toNat_lt_size
  induction ls generalizing start parts with
  | nil =>
    cases h
    rfl
  | cons l ls ih =>
    have hwidth := l.size_text
    rw [join_cons, Text.size_append] at hfit
    obtain ⟨tokens, parts, hfirst, hrest, rfl⟩ := List.forall₂_cons_left_iff.1 h
    have hcontent : UInt64.ofNat (start + Text.size l.content) ≤ stop := by
      rw [UInt64.le_iff_toNat_le, UInt64.toNat_ofNat_of_lt' (by omega)]
      omega
    have hgap : UInt64.ofNat (start + Text.size l.content) ≤
        .ofNat (start + Text.size l.text) := by
      rw [UInt64.le_iff_toNat_le, UInt64.toNat_ofNat_of_lt' (by omega),
        UInt64.toNat_ofNat_of_lt' (by omega)]
      omega
    have htail := ih (by omega) hrest
    exact validateTokens_append hfirst hcontent (validateTokens_of_le hgap htail)

theorem bytes_place {buffer : String} {before : List Char} {ls : List TextLine}
    (h : buffer.toList = before ++ join ls) (hsize : Text.size buffer.toList < UInt64.size)
    {parts : List (List Token)}
    (hparts : PartitionEach (Segment.place buffer (Text.size before) ls) parts) :
    (List.zipWith (fun tokens (l : TextLine) =>
      tokens.flatMap (fun t => t.bytes (Text.bytes buffer.toList)) ++ Text.bytes l.ending.text)
        parts ls).flatten = Text.bytes (join ls) := by
  induction ls generalizing before parts with
  | nil => simp [Text.bytes]
  | cons l ls ih =>
    obtain ⟨tokens, parts, hfirst, hrest, rfl⟩ := List.forall₂_cons_left_iff.1 hparts
    have hbefore : buffer.toList = (before ++ l.text) ++ join ls := by simp [h]
    have hwidth := l.size_text
    have hsum : Text.size buffer.toList =
        Text.size before + Text.size l.text + Text.size (join ls) := by
      rw [hbefore, Text.size_append, Text.size_append]
    have htail := ih hbefore (by rwa [Text.size_append])
    have hpart : isPartition ⟨.ofNat (Text.size before),
        .ofNat (Text.size before + Text.size l.content)⟩ tokens = true := hfirst
    have hcontent : tokens.flatMap (fun t => t.bytes (Text.bytes buffer.toList)) =
        Text.bytes l.content := by
      rw [flatMap_bytes_of_isPartition hpart, UInt64.toNat_ofNat_of_lt' (by omega),
        UInt64.toNat_ofNat_of_lt' (by omega), hbefore,
        TextLine.text, Text.bytes_append, Text.bytes_append, Text.bytes_append]
      simp [← Text.length_bytes]
    rw [List.zipWith_cons_cons, List.flatten_cons, htail, hcontent, join_cons, TextLine.text,
      Text.bytes_append, Text.bytes_append]

theorem exists_mem_flatten_iff {segments : List Segment} {parts : List (List Token)}
    (h : PartitionEach segments parts) (hrange : ∀ g ∈ segments, g.InRange) (n : Nat) :
    (∃ t ∈ parts.flatten, n ∈ t.span) ↔ ∃ g ∈ segments, g.Holds n := by
  induction h with
  | nil => simp
  | cons hfirst _ ih =>
    have htokens := (exists_mem_span_iff hfirst n).trans
      (hrange _ List.mem_cons_self).mem_span_iff
    have hrest := ih fun g hg => hrange g (List.mem_cons_of_mem _ hg)
    simp only [List.flatten_cons, List.mem_append, or_and_right, exists_or, htokens, hrest,
      List.mem_cons, exists_eq_left, Segment.Holds]

theorem Segment.lines_inRange {text : String} (hsize : Text.size text.toList < UInt64.size) :
    ∀ g ∈ lines text, g.InRange := by
  intro g hg
  obtain ⟨-, -, hstop⟩ := place_bounds hg
  rw [join_split] at hstop
  obtain ⟨i, hi, rfl⟩ := List.mem_iff_getElem.1 hg
  have hlen := (lines_show text).length_eq
  exact ⟨⟨_, (lines_show text).get hi (hlen ▸ hi)⟩, by omega⟩

/-- If the tokens partition each line, the whole text is covered. -/
theorem covers_of_partition {text : String} (hsize : Text.size text.toList < UInt64.size)
    {parts : List (List Token)} (h : PartitionEach (Segment.lines text) parts) :
    Covers text parts := by
  have hjoined : join (split text.toList) = text.toList := join_split text.toList
  refine ⟨h, ?_, ?_, ?_⟩
  · have hvalid :
        validateTokens ⟨.ofNat 0, .ofNat (Text.size text.toList)⟩ parts.flatten = true := by
      refine validateTokens_place (Nat.le_of_eq ?_) h
      rw [hjoined, UInt64.toNat_ofNat_of_lt' hsize, Nat.zero_add]
    exact hvalid
  · intro n b hb
    have hholds := exists_mem_flatten_iff h (Segment.lines_inRange hsize) n
    rw [← hjoined] at hb
    have hends : (∀ g ∈ Segment.lines text, ¬ g.Holds (0 + n)) ↔ b = 10 ∨ b = 13 :=
      Segment.not_holds_place_iff (consecutive_split text.toList) hb
    rw [Nat.zero_add] at hends
    rw [← hends]
    have hnot := not_congr hholds
    push Not at hnot
    exact hnot
  · have hwhole : text.toList = [] ++ join (split text.toList) := by rw [hjoined]; rfl
    have hbytes := bytes_place hwhole hsize h
    rwa [hjoined] at hbytes

theorem Partitions.ofText {σ : Type} {t : Tokenizer σ} {states : σ → Prop}
    (ht : Partitions t states) {text : String} (hsize : Text.size text.toList < UInt64.size) {s : σ}
    (hs : states s) :
    ∃ d s', Document.ofText t text s = .ok (d, s') ∧
      PartitionEach (Segment.lines text) (d.lines.map Line.tokens) := by
  have hstarts : lineStarts 0 ((split text.toList).map string) ((split text.toList).map width) =
      .ok (startsFrom 0 ((split text.toList).map string) ((split text.toList).map width)) := by
    refine lineStarts_lines_eq_ok_iff.2 ⟨?_, rfl⟩
    rwa [join_split]
  obtain ⟨lines, s', hlines, hparts⟩ :=
    ht.lines (Segment.lines_inRange hsize) (ht.reset hs) .null
  have hzip : ((split text.toList).map string).zip
      (startsFrom 0 ((split text.toList).map string) ((split text.toList).map width)) =
        (Segment.lines text).map fun g => (g.text, .ofNat g.start) := by
    rw [← Segment.map_start_place text 0, ← Segment.map_text_lines, Segment.lines, List.zip_map']
  rw [← hzip] at hlines
  refine ⟨⟨lines, (split text.toList).map width⟩, s', ?_, hparts⟩
  rw [Document.ofText_eq_build]
  exact bind_eq_ok_iff.2 ⟨_, hstarts, bind_eq_ok_iff.2 ⟨_, hlines, rfl⟩⟩

/-- A tokenizer that partitions each line covers a text, in the document that is made of it as well as
in the list of its tokens. The tokenizers whose tokens run from end to end are such. -/
theorem ofText_covers :
    (∀ i : Instance, i.Contiguous →
      Partitions Traced.tokenizer fun s => s.current.fresh = i.fresh) ∧
    ∀ {σ : Type} {t : Tokenizer σ} {states : σ → Prop}, Partitions t states →
      ∀ {text : String}, Text.size text.toList < UInt64.size → ∀ {s : σ}, states s →
        (∃ d s', Document.ofText t text s = .ok (d, s') ∧ Covers text (d.lines.map Line.tokens)) ∧
        ∃ parts s', t.tokenize text s = .ok (parts.flatten, s') ∧ Covers text parts := by
  refine ⟨fun i hi => hi.partitions, ?_⟩
  intro σ t states ht text hsize s hs
  obtain ⟨d, s₁, hbuild, hdocument⟩ := ht.ofText hsize hs
  obtain ⟨parts, s₂, htokens, hparts⟩ :=
    ht.tokenizeSegments (Segment.lines_inRange hsize) (ht.reset hs) .null
  exact ⟨⟨d, s₁, hbuild, covers_of_partition hsize hdocument⟩,
    parts, s₂, htokens, covers_of_partition hsize hparts⟩

theorem ofText_covers_parens :
    let text := "(é\r\n\r)\r\r\n("
    let s : Traced := .start (Grammar.Parens.tokenizer "parens" 0)
    ∃ d s₁ parts s₂, Document.ofText Traced.tokenizer text s = .ok (d, s₁) ∧
      Covers text (d.lines.map Line.tokens) ∧
      Traced.tokenizer.tokenize text s = .ok (parts.flatten, s₂) ∧ Covers text parts ∧
      d.lines.map (fun line => line.tokens.length) = [3, 0, 1, 0, 1] := by
  intro text s
  have ht := ofText_covers.1 _ (Grammar.Parens.tokenizer_contiguous "parens" 0)
  have hsize : Text.size text.toList < UInt64.size := by decide +kernel
  have hs : s.current.fresh = (Grammar.Parens.tokenizer "parens" 0).fresh := rfl
  obtain ⟨⟨d, s₁, hbuild, hdocument⟩, parts, s₂, htokens, hparts⟩ := ofText_covers.2 ht hsize hs
  refine ⟨d, s₁, parts, s₂, hbuild, hdocument, htokens, hparts, ?_⟩
  have hlengths : (Document.ofText Traced.tokenizer text s).map
      (fun p => p.1.lines.map fun line => line.tokens.length) = .ok [3, 0, 1, 0, 1] := by
    decide +kernel
  rw [hbuild] at hlengths
  exact Except.ok.inj hlengths

end Linewise
