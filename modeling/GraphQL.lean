import GraphQL.Delivery.Bundle
import GraphQL.Execution.Transcript
import GraphQL.Main
import GraphQL.Wire.Collection
import GraphQL.Wire.Config
import GraphQL.Wire.Document
import GraphQL.Wire.Payload
import GraphQL.Wire.TypeDef
import GraphQL.Proofs.Delivery.Lookup
import GraphQL.Proofs.Execution.Leads
import GraphQL.Proofs.Execution.Move
import GraphQL.Proofs.Delivery.Growth
import GraphQL.Proofs.Delivery.Readiness
import GraphQL.Proofs.Execution.Sites
import GraphQL.Proofs.Delivery.Results
import GraphQL.Proofs.Delivery.Updates
import GraphQL.Proofs.Execution.Soundness
import GraphQL.Proofs.Execution.Works
import GraphQL.Proofs.Execution.CompletionMoves
import GraphQL.Proofs.Execution.RunMoves
import GraphQL.Proofs.Execution.SessionMoves
import GraphQL.Proofs.Execution.Course
import GraphQL.Proofs.Delivery.Retention
import GraphQL.Proofs.Execution.Passage
import GraphQL.Proofs.Execution.Pulls
import GraphQL.Proofs.Execution.HasNext
import GraphQL.Proofs.Delivery.Below
import GraphQL.Proofs.Execution.StreamOrder
import GraphQL.Proofs.Execution.Handled
import GraphQL.Proofs.Execution.Completions
import GraphQL.Proofs.Delivery.Assembly
import GraphQL.Proofs.Delivery.Entries
import GraphQL.Proofs.Delivery.Losses
import GraphQL.Proofs.Execution.History
import GraphQL.Proofs.Execution.Isolation
import GraphQL.Proofs.Execution.Nesting
import GraphQL.Proofs.Collection.Sorting
import GraphQL.Proofs.Delivery.Contents
import GraphQL.Proofs.Delivery.Duties
import GraphQL.Proofs.Execution.Roots
import GraphQL.Proofs.Meaning.Accounts
import GraphQL.Proofs.Meaning.Conforms
import GraphQL.Proofs.Meaning.Deeds
import GraphQL.Proofs.Meaning.Delivered
import GraphQL.Proofs.Meaning.Errors
import GraphQL.Proofs.Meaning.Origins
import GraphQL.Proofs.Meaning.Positions
import GraphQL.Proofs.Meaning.Reported
import GraphQL.Proofs.Meaning.Does
import GraphQL.Proofs.Meaning.Grounded
import GraphQL.Proofs.Meaning.Holdings
import GraphQL.Proofs.Meaning.ListDeeds
import GraphQL.Proofs.Meaning.Owing
import GraphQL.Proofs.Meaning.Parts
import GraphQL.Proofs.Meaning.Results
import GraphQL.Proofs.Meaning.RunDeeds
import GraphQL.Proofs.Meaning.Streams
import GraphQL.Proofs.Meaning.Surroundings
import GraphQL.Proofs.Meaning.TaskDeeds
import GraphQL.Proofs.Meaning.Untimed
import GraphQL.Proofs.Collection.Plain
import GraphQL.Proofs.Execution.Initial
import GraphQL.Proofs.Execution.Serial
import GraphQL.Proofs.Document.Parse
import GraphQL.Proofs.Wire.RoundTrip
import GraphQL.Proofs.Coercion.Agreement
import GraphQL.Proofs.Release.Released
import GraphQL.Proofs.Coercion.Conformance
import GraphQL.Proofs.Collection.Traversal
import GraphQL.Proofs.Collection.Termination
import GraphQL.Proofs.Collection.Produced
import GraphQL.Proofs.Delivery.Operations
import GraphQL.Proofs.Delivery.Wholeness
import GraphQL.Proofs.Schema.Validity
import GraphQL.Proofs.Coercion.Literals
import GraphQL.Proofs.Coercion.Variables
import GraphQL.Proofs.Coercion.Arguments
import GraphQL.Proofs.Execution.OutputTypes
import GraphQL.Proofs.Execution.Watched
import GraphQL.Proofs.Execution.Watches
import GraphQL.Proofs.Execution.AllowedCalls
import GraphQL.Proofs.Schema.PossibleTypes
import GraphQL.Proofs.Document.Escapes
import GraphQL.Proofs.Document.Tiling
import GraphQL.Proofs.Document.Progress
import GraphQL.Proofs.Document.BlockStrings
import GraphQL.Proofs.Document.TypeTexts
import GraphQL.Proofs.Delivery.BundleTotals
import GraphQL.Proofs.Delivery.Attention
import GraphQL.Proofs.Document.Outline
import GraphQL.Proofs.Document.Spans
import GraphQL.Proofs.Execution.Unseen
import GraphQL.Proofs.Source.Lines
