import Linewise.Registry

/-! Values written out in one line for a reader: records by field, lists, sets, and quoted text. -/
namespace Linewise.Inspect

/-- Text between double quotes, in which a quote or a backslash follows a backslash. -/
def quoted (s : String) : String :=
  let escaped := s.toList.flatMap fun c => if c = '"' || c = '\\' then ['\\', c] else [c]
  "\"" ++ .ofList escaped ++ "\""

def commaSeparated (items : List String) : String := String.intercalate ", " items

def listOf (items : List String) : String := "[" ++ commaSeparated items ++ "]"

def setOf (items : List String) : String := "\x7b" ++ commaSeparated items ++ "\x7d"

def field (entry : String × String) : String := entry.1 ++ ": " ++ entry.2

def record (name : String) (fields : List (String × String)) : String :=
  name ++ " \x7b " ++ commaSeparated (fields.map field) ++ " \x7d"

def tuple (name value : String) : String := name ++ "(" ++ value ++ ")"

def option : Option String → String
  | none => "None"
  | some value => tuple "Some" value

def offset (o : Offset) : String := toString o.toNat

def span (s : Span) : String := offset s.start ++ ".." ++ offset s.stop

def nesting (depth : UInt16) : String := record "TokenMeta" [("nesting", toString depth.toNat)]

def token (t : Token) : String :=
  record "Token"
    [("kind", t.kind.name), ("range", span t.span), ("meta", option (t.nesting.map nesting))]

def row (r : Row) : String :=
  record "TokenList"
    [("tokens", listOf (r.tokens.map token)), ("terminal", token r.terminal),
      ("line_start", offset r.start)]

def context : Context → String
  | .embedded languageIndex depth =>
    record "Embedded"
      [("language_index", toString languageIndex.toNat), ("depth", toString depth.toNat)]
  | .delimited delimiter => tuple "Delimited" (quoted delimiter)
  | .nesting depth => tuple "Nesting" (toString depth.toNat)

def tokenizer : Instance → String
  | .plain p => record "PlainTokenizer" [("tokens", row p.row)]
  | .engine e =>
    record "DispatchTokenizer"
      [("has_callback", toString e.grammar.isSome),
        ("language_index", toString e.languageIndex.toNat),
        ("delegate_state", option (e.context.map context)), ("tokens", row e.row)]
  | .table _ r => record "Raw" [("tokens", row r)]

def catalog (c : Catalog) : String :=
  record "TokenizerLoader" [("types", listOf (c.names.map quoted))]

def namedRecipe (typeName : String) (ownCatalog : Bool) : String :=
  record "Named" [("type_name", quoted typeName), ("own_loader", toString ownCatalog)]

def recipe : Recipe → String
  | .named typeName => namedRecipe typeName false
  | .namedIn _ typeName => namedRecipe typeName true
  | .factory _ => "Factory(..)"
  | .engine _ languageIndex =>
    "Dispatch \x7b language_index: " ++ toString languageIndex.toNat ++ ", .. \x7d"

def entry (e : Entry) : String :=
  record "TokenizerEntry" [("key", quoted e.key), ("creator", recipe e.recipe)]

def registry (r : Registry) : String :=
  record "TokenizerRegistry" [("keys", setOf (r.keys.map quoted)), ("loader", catalog r.catalog)]

end Linewise.Inspect
