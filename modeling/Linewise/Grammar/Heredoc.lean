import Linewise.Grammar

/-! Quoted lines up to one that repeats the delimiter named after a double less-than sign. -/
namespace Linewise.Grammar

namespace Heredoc

/-- A line outside of a quotation. It opens one if anything follows the sign. -/
def emitPlain (s : List Char) : Emission :=
  let plain := Emission.spanUnlessEmpty 0 (Text.size s) .text (.endNull .done)
  match Text.breakOn? ['<', '<'] s with
  | some (before, found) =>
    if (found.drop 2).isEmpty then plain
    else
      .spanUnlessEmpty 0 (Text.size before) .text <|
        .span (Text.size before) (Text.size found) .operator <|
          .setContext (some (.delimited (.ofList (found.drop 2)))) .done
  | none => plain

def emit (segment : Segment) : Emission :=
  let size := Text.size segment.text.toList
  .look fun emitter =>
    match emitter.context with
    | some (.delimited delimiter) =>
      if segment.text = delimiter then .span 0 size .delimiter (.setContext none (.endNull .done))
      else .span 0 size .string .done
    | _ => emitPlain segment.text.toList

end Heredoc

def heredoc (label : String) : Grammar := ⟨label, fun segment _ _ => Heredoc.emit segment, true⟩

end Linewise.Grammar
