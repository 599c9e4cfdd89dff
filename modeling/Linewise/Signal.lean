import Linewise.Grammar

/-! What can be noticed of an operation from outside besides its result: why a tokenizer could not be
built, what is written to the log, and all that is signalled on the way. -/
namespace Linewise

/-- The first three mean that there is no such tokenizer to be had; the last two must reach the
caller. -/
inductive BuildCause where
  | notFound
  | notConstructible
  | denied
  | resourceExhausted
  | invariantViolated
  deriving DecidableEq, Repr

namespace BuildCause

def isFatal : BuildCause → Bool
  | .resourceExhausted | .invariantViolated => true
  | .notFound | .notConstructible | .denied => false

def text : BuildCause → String
  | .notFound => "not found"
  | .notConstructible => "not constructible"
  | .denied => "denied"
  | .resourceExhausted => "resource exhausted"
  | .invariantViolated => "invariant violated"

end BuildCause

structure BuildError where
  cause : BuildCause
  message : String
  deriving DecidableEq, Repr

namespace BuildError

def notFound (typeName : String) : BuildError :=
  ⟨.notFound, "no tokenizer type named `" ++ typeName ++ "`"⟩

def isFatal (e : BuildError) : Bool := e.cause.isFatal

def display (e : BuildError) : String :=
  "tokenizer construction failed (" ++ e.cause.text ++ "): " ++ e.message

end BuildError

inductive Level where
  | trace
  | debug
  | warn
  | error
  deriving DecidableEq, Repr

def Level.text : Level → String
  | .trace => "TRACE"
  | .debug => "DEBUG"
  | .warn => "WARN"
  | .error => "ERROR"

inductive RecipeForm where
  | named
  | factory
  | engine
  deriving DecidableEq, Repr

def RecipeForm.text : RecipeForm → String
  | .named => "named"
  | .factory => "factory"
  | .engine => "dispatch"

inductive Event where
  | analysis (languageIndex : UInt32) (size : Nat)
  | registryBuilt (entries : Nat)
  | registering (key : String) (form : RecipeForm)
  | resolved (key tokenizer : String)
  | unavailable (key : String) (error : BuildError)
  | failed (key : String) (error : BuildError)
  deriving DecidableEq, Repr

namespace Event

def level : Event → Level
  | .analysis _ _ => .trace
  | .registryBuilt _ => .debug
  | .registering _ _ => .debug
  | .resolved _ _ => .debug
  | .unavailable _ _ => .warn
  | .failed _ _ => .error

def message : Event → String
  | .analysis _ _ => "dispatch.analyze"
  | .registryBuilt _ => "tokenizer registry built"
  | .registering _ _ => "registering tokenizer"
  | .resolved _ _ => "resolved tokenizer"
  | .unavailable _ _ => "tokenizer unavailable, treating key as unregistered"
  | .failed _ _ => "fatal tokenizer construction failure"

def fields : Event → List (String × String)
  | .analysis languageIndex size =>
    [("language_index", toString languageIndex.toNat), ("len", toString size)]
  | .registryBuilt entries => [("entries", toString entries)]
  | .registering key form => [("key", key), ("creator", form.text)]
  | .resolved key tokenizer => [("key", key), ("tokenizer", tokenizer)]
  | .unavailable key error | .failed key error =>
    [("key", key), ("kind", error.cause.text), ("error", error.display)]

end Event

/-- A grammar or a table began on a line, a grammar recorded something or was told of a context, a
constructor ran, or something was logged. -/
inductive Signal where
  | entered
  | observed (observation : Observation)
  | contextSet (label : String) (context : Option Context)
  | constructed
  | logged (event : Event)
  deriving DecidableEq, Repr

namespace Signal

/-- How many analyses a grammar or a table began. -/
def calls (signals : List Signal) : Nat := signals.count .entered

def constructions (signals : List Signal) : Nat := signals.count .constructed

def observations (signals : List Signal) : List Observation :=
  signals.filterMap fun
    | .observed observation => some observation
    | _ => none

def changes (signals : List Signal) : List (String × Option Context) :=
  signals.filterMap fun
    | .contextSet label context => some (label, context)
    | _ => none

def log (signals : List Signal) : List Event :=
  signals.filterMap fun
    | .logged event => some event
    | _ => none

@[simp] theorem changes_append (s t : List Signal) : changes (s ++ t) = changes s ++ changes t :=
  List.filterMap_append

@[simp] theorem log_append (s t : List Signal) : log (s ++ t) = log s ++ log t :=
  List.filterMap_append

end Signal
end Linewise
