import Linewise.Text

/-! A text as a sequence of lines, each with the ending that closes it. LF, CRLF and a bare CR end a
line, CRLF before its parts, and only the last line of a text can be without an ending. -/
namespace Linewise

inductive Ending where
  | lf
  | crlf
  | cr
  | missing
  deriving DecidableEq, Repr

def Ending.text : Ending → List Char
  | .lf => ['\n']
  | .crlf => ['\r', '\n']
  | .cr => ['\r']
  | .missing => []

def Ending.width : Ending → Nat
  | .lf => 1
  | .crlf => 2
  | .cr => 1
  | .missing => 0

@[simp] theorem Ending.size_text (e : Ending) : Text.size e.text = e.width := by
  cases e <;> decide

structure TextLine where
  content : List Char
  ending : Ending
  deriving DecidableEq, Repr

namespace TextLine

def text (l : TextLine) : List Char := l.content ++ l.ending.text

/-- Puts `c` in front of the first line; where there is none, `c` is an unended line. -/
def extendFirst (c : Char) : List TextLine → List TextLine
  | [] => [⟨[c], .missing⟩]
  | l :: ls => ⟨c :: l.content, l.ending⟩ :: ls

def split : List Char → List TextLine
  | [] => []
  | '\n' :: s => ⟨[], .lf⟩ :: split s
  | '\r' :: '\n' :: s => ⟨[], .crlf⟩ :: split s
  | '\r' :: s => ⟨[], .cr⟩ :: split s
  | c :: s => extendFirst c (split s)

def join (ls : List TextLine) : List Char := ls.flatMap text

@[simp] theorem join_nil : join [] = [] := rfl

@[simp] theorem join_cons (l : TextLine) (ls : List TextLine) : join (l :: ls) = l.text ++ join ls :=
  rfl

@[simp] theorem join_extendFirst (c : Char) (ls : List TextLine) :
    join (extendFirst c ls) = c :: join ls := by
  cases ls <;> simp [extendFirst, text, Ending.text]

theorem join_split (s : List Char) : join (split s) = s := by
  fun_induction split s with
  | case1 => rfl
  | case2 s ih => simp [text, Ending.text, ih]
  | case3 s ih => simp [text, Ending.text, ih]
  | case4 s _ ih => simp [text, Ending.text, ih]
  | case5 c s _ _ _ ih => simp [ih]

end TextLine
end Linewise
