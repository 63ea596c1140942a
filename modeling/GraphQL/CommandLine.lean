import GraphQL.Command
import GraphQL.Json.Reader

/-!
# The command line

What the words after the name of the program mean: `run` takes a document and its options, `check` takes files.  Words
that begin with a dash are options, wherever they stand.
-/

namespace GraphQL

/-- What the program is asked to do. -/
inductive Invocation where
  | run (document : String) (options : RunOptions)
  | check (files : List String)

/-- Why the words on the command line mean nothing. -/
inductive UsageError where
  | noCommand
  | unknownCommand (word : String)
  | unknownOption (word : String)
  | missingValue (option : String)
  | invalidVariables
  | noDocument
  | unexpectedWord (word : String)
  | noFiles
deriving DecidableEq, Repr

namespace UsageError

/-- The sentence for a reason. -/
def message : UsageError → String
  | noCommand => "a command is required: run or check"
  | unknownCommand word => "unknown command: " ++ word
  | unknownOption word => "unknown option: " ++ word
  | missingValue option => "a value is required for " ++ option
  | invalidVariables => "the variables are no JSON object"
  | noDocument => "a document is required"
  | unexpectedWord word => "unexpected word: " ++ word
  | noFiles => "at least one file is required"

end UsageError

namespace Invocation

/-- The options and documents of `run` that were read so far. -/
structure RunWords where
  documents : List String := []
  options : RunOptions := {}

/-- Reads the words after `run`. -/
def runWords (words : RunWords) : List String → Except UsageError RunWords
  | [] => .ok words
  | "-o" :: rest | "--operation-name" :: rest =>
    match rest with
    | [] => .error (.missingValue "--operation-name")
    | name :: rest => runWords { words with options := { words.options with operationName := some name } } rest
  | "--variables" :: rest =>
    match rest with
    | [] => .error (.missingValue "--variables")
    | text :: rest =>
      match Json.read? text with
      | some (.object fields) => runWords { words with options := { words.options with variableInputs := fields } } rest
      | _ => .error .invalidVariables
  | "--no-incremental" :: rest =>
    let config := { words.options.config with incrementalDelivery := false }
    runWords { words with options := { words.options with config := config } } rest
  | "--field-tracing" :: rest =>
    let config := { words.options.config with fieldTracing := true }
    runWords { words with options := { words.options with config := config } } rest
  | word :: rest =>
    if word ≠ "-" ∧ word.startsWith "-" then .error (.unknownOption word)
    else runWords { words with documents := words.documents ++ [word] } rest

/-- Reads the words of a command line. -/
def ofWords : List String → Except UsageError Invocation
  | [] => .error .noCommand
  | "run" :: rest => do
    let words ← runWords {} rest
    match words.documents with
    | [] => .error .noDocument
    | [document] => .ok (.run document words.options)
    | _ :: word :: _ => .error (.unexpectedWord word)
  | "check" :: rest =>
    match rest.find? fun word => word ≠ "-" ∧ word.startsWith "-" with
    | some word => .error (.unknownOption word)
    | none => if rest.isEmpty then .error .noFiles else .ok (.check rest)
  | word :: _ => .error (.unknownCommand word)

end Invocation

namespace Error

/-- An error as it is reported to the person at the terminal. -/
def report (e : Error) : String :=
  match e.locations with
  | [] => "  --> " ++ e.message
  | l :: _ => "  --> " ++ e.message ++ " (" ++ toString l.line ++ ":" ++ toString l.column ++ ")"

end Error

end GraphQL
