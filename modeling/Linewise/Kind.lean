/-! What a token is, and what is carried over from one line to the next: the kind in which the line ends,
and what a tokenizer remembers besides. -/
namespace Linewise

/-- `internal` holds the states that a grammar keeps for itself across lines. -/
inductive Kind where
  | null
  | keyword
  | keywordControl
  | keywordType
  | keywordModifier
  | string
  | stringEscape
  | number
  | boolean
  | identifier
  | type
  | constant
  | function
  | macroCall
  | comment
  | commentBlock
  | commentDoc
  | operator
  | punctuation
  | delimiter
  | attr
  | label
  | heading
  | link
  | emphasis
  | markupTag
  | whitespace
  | error
  | text
  | internal (code : Int32)
  deriving DecidableEq, Repr, Inhabited

namespace Kind

def isComment : Kind → Bool
  | .comment | .commentBlock | .commentDoc => true
  | _ => false

def isString : Kind → Bool
  | .string | .stringEscape => true
  | _ => false

def isKeyword : Kind → Bool
  | .keyword | .keywordControl | .keywordType | .keywordModifier => true
  | _ => false

def isInternal : Kind → Bool
  | .internal _ => true
  | _ => false

/-- Whether a line that ends in this kind leaves nothing open. -/
def isNull (k : Kind) : Bool := k == .null

def shared : List Kind :=
  [.null, .keyword, .keywordControl, .keywordType, .keywordModifier, .string, .stringEscape, .number,
    .boolean, .identifier, .type, .constant, .function, .macroCall, .comment, .commentBlock,
    .commentDoc, .operator, .punctuation, .delimiter, .attr, .label, .heading, .link, .emphasis,
    .markupTag, .whitespace, .error, .text]

def name : Kind → String
  | .null => "Null"
  | .keyword => "Keyword"
  | .keywordControl => "KeywordControl"
  | .keywordType => "KeywordType"
  | .keywordModifier => "KeywordModifier"
  | .string => "String"
  | .stringEscape => "StringEscape"
  | .number => "Number"
  | .boolean => "Boolean"
  | .identifier => "Identifier"
  | .type => "Type"
  | .constant => "Constant"
  | .function => "Function"
  | .macroCall => "Macro"
  | .comment => "Comment"
  | .commentBlock => "CommentBlock"
  | .commentDoc => "CommentDoc"
  | .operator => "Operator"
  | .punctuation => "Punctuation"
  | .delimiter => "Delimiter"
  | .attr => "Attribute"
  | .label => "Label"
  | .heading => "Heading"
  | .link => "Link"
  | .emphasis => "Emphasis"
  | .markupTag => "MarkupTag"
  | .whitespace => "Whitespace"
  | .error => "Error"
  | .text => "Text"
  | .internal code => "Internal(" ++ toString code.toInt ++ ")"

def ofName? (name : String) : Option Kind := shared.find? fun k => k.name == name

end Kind

/-- Inside another language at some depth, before a closing delimiter, or at a nesting depth. -/
inductive Context where
  | embedded (languageIndex : UInt32) (depth : UInt16)
  | delimited (delimiter : String)
  | nesting (depth : UInt16)
  deriving DecidableEq, Repr

end Linewise
