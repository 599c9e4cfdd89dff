import Linewise.Grammar

/-! Grammars spelled out as a list of actions, which are carried out in order for every line. -/
namespace Linewise.Grammar

namespace Script

inductive Place where
  | offset (n : Nat)
  | size
  | half
  deriving DecidableEq, Repr

def Place.resolve (size : Nat) : Place → Nat
  | .offset n => n
  | .size => size
  | .half => size / 2

inductive Condition where
  | initial (kind : Kind)
  | context (context : Option Context)
  | text (text : String)
  | contains (text : String)
  deriving DecidableEq, Repr

/-- `replace` records the context that it takes the place of, which `assign` does not. -/
inductive Action where
  | token (start stop : Place) (kind : Kind) (nesting : Option UInt16)
  | endNull
  | replace (context : Option Context)
  | assign (context : Option Context)
  | see
  | fail (message : String)
  | branch (condition : Condition) (yes no : List Action)

structure Line where
  segment : Segment
  initial : Kind
  offset : Offset

def Condition.holds (line : Line) (emitter : Emitter) : Condition → Bool
  | .initial k => line.initial == k
  | .context c => emitter.context == c
  | .text t => line.segment.text == t
  | .contains t => (Text.breakOn? t.toList line.segment.text.toList).isSome

mutual

def Action.perform (line : Line) (next : Emission) : Action → Emission
  | .token start stop kind nesting =>
    let size := line.segment.size
    .token (start.resolve size) (stop.resolve size) kind nesting next
  | .endNull => .endNull next
  | .replace context =>
    .look fun emitter => .note (.replaced emitter.context) (.setContext context next)
  | .assign context => .setContext context next
  | .see =>
    .look fun emitter => .note (.saw emitter line.segment line.initial line.offset) next
  | .fail message => .fail message
  | .branch condition yes no =>
    .look fun emitter =>
      if condition.holds line emitter then performAll line next yes else performAll line next no

def performAll (line : Line) (next : Emission) : List Action → Emission
  | [] => next
  | action :: rest => action.perform line (performAll line next rest)

end

end Script

def script (label : String) (actions : List Script.Action) : Grammar :=
  ⟨label, fun segment initial offset =>
    Script.performAll ⟨segment, initial, offset⟩ .done actions, true⟩

end Linewise.Grammar
