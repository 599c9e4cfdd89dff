import Linewise.Grammar

/-! Text with stretches of another language between markers. Being inside of one reaches over lines. -/
namespace Linewise.Grammar

namespace Template

/-- What ends the stretch that is being read. -/
def marker (embedded : Bool) : List Char := if embedded then ['%', '>'] else ['<', '%']

def kind (embedded : Bool) : Kind := if embedded then .internal 1 else .text

def context (embedded : Bool) : Option Context := if embedded then some (.embedded 1 0) else none

def isEmbedded : Option Context → Bool
  | some (.embedded _ _) => true
  | _ => false

theorem length_marker (embedded : Bool) : (marker embedded).length = 2 := by
  cases embedded <;> rfl

def scan (embedded : Bool) (pos : Nat) (s : List Char) : Emission :=
  if s.isEmpty then .done
  else
    match h : Text.breakOn? (marker embedded) s with
    | some (before, found) =>
      let size := Text.size before
      .spanUnlessEmpty pos size (kind embedded) <|
        .span (pos + size) 2 .markupTag <|
          .setContext (context !embedded) (scan (!embedded) (pos + size + 2) (found.drop 2))
    | none => .span pos (Text.size s) (kind embedded) .done
termination_by s.length
decreasing_by
  have := Text.length_add_of_breakOn? h
  rw [length_marker] at this
  simp only [List.length_drop]
  omega

def emit (segment : Segment) : Emission :=
  .look fun emitter => scan (isEmbedded emitter.context) 0 segment.text.toList

end Template

def template (label : String) : Grammar := ⟨label, fun segment _ _ => Template.emit segment, true⟩

end Linewise.Grammar
