import GraphQL.Demo
import GraphQL.Document.Parser
import GraphQL.Execution.Session

/-!
# Commands

What the commands for documents do: `run` executes a document over the demo schema and gives its payloads line by
line, and `check` looks for syntax errors.  Both come to an exit code, which is one if anything was wrong.
-/

namespace GraphQL

/-- The choices for the execution of a document. -/
structure RunOptions where
  operationName : Option String := none
  variableInputs : Dict Json := []
  config : ExecutionConfig := {}

/-- Why a command comes to nothing. -/
inductive CommandError where
  /-- A file cannot be read. -/
  | noFile
  /-- A source ends within an escape sequence. -/
  | brokenSource
  /-- The schema is not valid. -/
  | schema (e : SchemaError)
  /-- The execution does not end. -/
  | noEnd

namespace CommandError

/-- The sentence for a reason. -/
def message : CommandError → String
  | noFile => "the file cannot be read"
  | brokenSource => "the source ends within an escape sequence"
  | schema e => e.message
  | noEnd => "the execution does not end"

end CommandError

/-- What a command comes to: the lines for its output, the errors to be reported, and the exit code. -/
structure CommandOutcome where
  lines : List String := []
  errors : List Error := []
  code : Nat

namespace Command

/-- Whether an object has errors. -/
def hasErrors (j : Json) : Bool := (j.get? "errors").isSome

/-- Whether the entries of a payload under a key have errors. -/
def entriesHaveErrors (payload : Json) (key : String) : Bool :=
  match payload.get? key with
  | some (.array entries) => entries.any hasErrors
  | _ => false

/-- Whether there are errors in a payload. -/
def reportsErrors (payload : Json) : Bool :=
  hasErrors payload || entriesHaveErrors payload "incremental" || entriesHaveErrors payload "completed"

/-- The payloads of a request; one that is rejected has a single response. -/
def payloads (e : Executor) (r : Request) : Option (List Json) :=
  match e.prepare r with
  | .error errors => some [({ errors := errors } : Response).toJson]
  | .ok c => (c.payloads.run c.stage).bind (·.1)

/-- Executes a document over the demo schema. -/
def run (source : String) (options : RunOptions) : Except CommandError CommandOutcome :=
  match Document.parse? source with
  | none => .error .brokenSource
  | some result =>
    match result.toExcept source with
    | .error errors => .ok { errors := errors, code := 1 }
    | .ok document =>
      match Demo.schema with
      | .error e => .error (.schema e)
      | .ok schema =>
        let request : Request :=
          { document := document, operationName := options.operationName, variableInputs := options.variableInputs
            rootValue := Demo.root }
        match payloads ⟨schema, Demo.resolvers, options.config⟩ request with
        | none => .error .noEnd
        | some payloads =>
          .ok { lines := payloads.map Json.text, code := if payloads.any reportsErrors then 1 else 0 }

/-- The syntax errors of one source. -/
def syntaxErrors (source : String) : Except CommandError (List Error) :=
  match Document.parse? source with
  | none => .error .brokenSource
  | some result =>
    match result.toExcept source with
    | .error errors => .ok errors
    | .ok _ => .ok []

/-- Looks for syntax errors in the contents of files, up to the first one that cannot be read. -/
def check (sources : List (Option String)) : Except CommandError CommandOutcome := do
  let errors ← sources.mapM fun source =>
    match source with
    | none => .error .noFile
    | some source => syntaxErrors source
  return { errors := errors.flatten, code := if errors.all List.isEmpty then 0 else 1 }

end Command

end GraphQL
