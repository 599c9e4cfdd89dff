import Linewise.Grammar.Parens
import Linewise.Grammar.Template
import Linewise.Proofs.Tokenizer.Partitioning

/-! Two grammars that do not depend on where a line is. That of nested parentheses covers each line, and
that of text with stretches of another language has nothing to do on an empty one. -/
namespace Linewise.Grammar

namespace Parens

def byteCalls (depth : UInt16) : Nat → Nat → List Call
  | _, 0 => []
  | pos, count + 1 =>
    .token pos (pos + 1) .delimiter (some depth) :: byteCalls depth (pos + 1) count

def scanCalls (depth : UInt16) (pos : Nat) : List Char → List Call
  | [] => [.setContext (some (.nesting depth))]
  | c :: s =>
    let depth := descend depth c
    byteCalls depth pos c.utf8Size ++ scanCalls depth (pos + c.utf8Size) s

/-- What comes after the bytes of a character is not affected by them, as long as they are in place. -/
theorem calls_emitBytes {depth : UInt16} {next : Emission} {calls : List Call} {pos count : Nat}
    {e : Emitter} (hfit : e.lineStart.toNat + (pos + count) < UInt64.size)
    (hnext : ∀ e' : Emitter, e'.lineStart = e.lineStart → next.calls e' = calls) :
    (emitBytes depth next pos count).calls e = byteCalls depth pos count ++ calls := by
  induction count generalizing pos e with
  | zero => exact hnext e rfl
  | succ count ih =>
    have hwithin : (Call.token pos (pos + 1) .delimiter (some depth)).Within (pos + (count + 1)) :=
      ⟨Nat.le_succ pos, by omega⟩
    have hrest : (emitBytes depth next (pos + 1) count).calls
        (e.after [.token pos (pos + 1) .delimiter (some depth)]) = _ :=
      ih (show e.lineStart.toNat + (pos + 1 + count) < UInt64.size by omega) hnext
    simp only [emitBytes, Emission.calls, Call.apply_eq_after hwithin hfit, hrest]
    rfl

theorem calls_scan {depth : UInt16} {pos : Nat} {s : List Char} {e : Emitter}
    (hfit : e.lineStart.toNat + (pos + Text.size s) < UInt64.size) :
    (scan depth pos s).calls e = scanCalls depth pos s := by
  induction s generalizing depth pos e with
  | nil => rfl
  | cons c s ih =>
    rw [Text.size_cons] at hfit
    refine calls_emitBytes (by omega) fun e' he' => ih ?_
    rw [he']
    omega

theorem contiguous_byteCalls {depth : UInt16} {pos count stop : Nat} {calls : List Call}
    (h : Call.Contiguous stop (pos + count) calls) :
    Call.Contiguous stop pos (byteCalls depth pos count ++ calls) := by
  induction count generalizing pos with
  | zero => exact h
  | succ count ih =>
    refine ⟨rfl, Nat.le_succ pos, ih ?_⟩
    rwa [Nat.add_right_comm]

theorem contiguous_scanCalls (depth : UInt16) (pos : Nat) (s : List Char) :
    Call.Contiguous (pos + Text.size s) pos (scanCalls depth pos s) := by
  induction s generalizing depth pos with
  | nil => exact rfl
  | cons c s ih =>
    refine contiguous_byteCalls ?_
    rw [Text.size_cons, ← Nat.add_assoc]
    exact ih (descend depth c) (pos + c.utf8Size)

theorem calls_emit (label : String) (languageIndex : UInt32) {segment : Segment} {text : String}
    (kind : Kind) {offset : Offset} (context : Option Context) (h : segment.Shows text)
    (hfit : offset.toNat + segment.size < UInt64.size) :
    ((parens label).emit segment kind offset).calls
      ⟨.openAt offset, segment.size, languageIndex, context, false⟩ =
        scanCalls (depthOf context) 0 text.toList := by
  rw [h.size_eq, ← Nat.zero_add (Text.size text.toList)] at hfit
  let e : Emitter := ⟨.openAt offset, segment.size, languageIndex, context, false⟩
  have hcalls : (scan (depthOf context) 0 text.toList).calls e = _ := calls_scan hfit
  rw [← h.text_eq] at hcalls ⊢
  exact hcalls

theorem steady (label : String) (languageIndex : UInt32) :
    (parens label).Steady languageIndex
      fun text _ context => scanCalls (depthOf context) 0 text.toList where
  calls_eq kind _ context h hfit := calls_emit label languageIndex kind context h hfit
  within text _ context := by
    have hcontiguous := contiguous_scanCalls (depthOf context) 0 text.toList
    rw [Nat.zero_add] at hcontiguous
    exact hcontiguous.within

theorem contiguous (label : String) (languageIndex : UInt32) :
    (parens label).Contiguous languageIndex := by
  intro segment text kind offset context h hfit
  have hcontiguous := contiguous_scanCalls (depthOf context) 0 text.toList
  rw [Nat.zero_add, ← h.size_eq] at hcontiguous
  rw [calls_emit label languageIndex kind context h hfit]
  exact hcontiguous

def tokenizer (label : String) (languageIndex : UInt32) : Instance :=
  .engine (.new (some (parens label)) languageIndex)

theorem tokenizer_steady (label : String) (languageIndex : UInt32) :
    (tokenizer label languageIndex).Steady := by
  intro g hg
  obtain rfl := Option.some.inj hg
  exact ⟨_, steady label languageIndex⟩

theorem tokenizer_contiguous (label : String) (languageIndex : UInt32) :
    (tokenizer label languageIndex).Contiguous := by
  intro g hg
  obtain rfl := Option.some.inj hg
  exact contiguous label languageIndex

end Parens

namespace Template

theorem size_marker (embedded : Bool) : Text.size (marker embedded) = 2 := by
  cases embedded <;> decide

/-- What is left behind the marker has two bytes less. -/
theorem size_drop_marker {embedded : Bool} {s before found : List Char}
    (h : Text.breakOn? (marker embedded) s = some (before, found)) :
    Text.size s = Text.size before + 2 + Text.size (found.drop 2) := by
  rcases Text.breakOn?_sound h with ⟨rfl, rest, rfl⟩
  rw [List.drop_left' (length_marker embedded), Text.size_append, Text.size_append, size_marker,
    Nat.add_assoc]

theorem blind_scan (embedded : Bool) (pos : Nat) (s : List Char) : (scan embedded pos s).Blind := by
  fun_induction scan embedded pos s with
  | case1 => trivial
  | case2 embedded pos s _ before found h size ih =>
    unfold Emission.spanUnlessEmpty
    split <;> exact ih
  | case3 => trivial

theorem within_scan (embedded : Bool) (pos : Nat) (s : List Char) :
    ∀ call ∈ (scan embedded pos s).written, call.Within (pos + Text.size s) := by
  fun_induction scan embedded pos s with
  | case1 => simp [Emission.written]
  | case2 embedded pos s _ before found h size ih =>
    have hsize := size_drop_marker h
    have hsum : pos + size + 2 + Text.size (found.drop 2) = pos + Text.size s := by omega
    rw [hsum] at ih
    have hrest : ∀ call ∈ (Emission.span (pos + size) 2 .markupTag (.setContext (context !embedded)
        (scan (!embedded) (pos + size + 2) (found.drop 2)))).written,
          call.Within (pos + Text.size s) :=
      List.forall_mem_cons.2 ⟨⟨by omega, by omega⟩, List.forall_mem_cons.2 ⟨trivial, ih⟩⟩
    unfold Emission.spanUnlessEmpty
    split
    · exact hrest
    · exact List.forall_mem_cons.2 ⟨⟨by omega, by omega⟩, hrest⟩
  | case3 embedded pos s _ h =>
    exact List.forall_mem_cons.2 ⟨⟨by omega, Nat.le_refl _⟩, List.forall_mem_nil _⟩

def scanCalls (text : String) (context : Option Context) : List Call :=
  (scan (isEmbedded context) 0 text.toList).written

theorem within_scanCalls (text : String) (context : Option Context) :
    ∀ call ∈ scanCalls text context, call.Within (Text.size text.toList) := by
  have hwithin := within_scan (isEmbedded context) 0 text.toList
  rwa [Nat.zero_add] at hwithin

theorem steady (label : String) (languageIndex : UInt32) :
    (template label).Steady languageIndex fun text _ context => scanCalls text context where
  calls_eq {segment text} kind {offset} context h hfit := by
    let e : Emitter := ⟨.openAt offset, segment.size, languageIndex, context, false⟩
    rw [h.size_eq] at hfit
    have hcalls : (scan (isEmbedded context) 0 text.toList).calls e = scanCalls text context :=
      Emission.calls_eq_written (blind_scan _ _ _) (within_scanCalls text context) hfit
    rw [← hcalls, ← h.text_eq]
    rfl
  within text _ context := within_scanCalls text context

theorem scanCalls_empty (context : Option Context) : scanCalls "" context = [] := by
  have hdone : scan (isEmbedded context) 0 [] = .done := by rw [scan, List.isEmpty_nil, if_pos rfl]
  exact congrArg Emission.written hdone

def tokenizer (label : String) (languageIndex : UInt32) : Instance :=
  .engine (.new (some (template label)) languageIndex)

end Template
end Linewise.Grammar
