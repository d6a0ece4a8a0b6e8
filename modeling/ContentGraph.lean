import ContentGraph.Document.Navigation
import ContentGraph.GraphQL.Service
import ContentGraph.Log.Record
import ContentGraph.Settings.Files
import ContentGraph.Proofs.Number.Digits
import ContentGraph.Proofs.Number.Rounding
import ContentGraph.Proofs.Checked
import ContentGraph.Proofs.Json.Numeral
import ContentGraph.Proofs.Json.Quoted
import ContentGraph.Proofs.Json.RoundTrip
import ContentGraph.Proofs.Json.Sorted
import ContentGraph.Proofs.Payload.NormalForm
import ContentGraph.Proofs.Resource.RoundTrip
import ContentGraph.Proofs.Store.Contents
import ContentGraph.Proofs.Document.Elements
import ContentGraph.Proofs.Document.Progress
import ContentGraph.Proofs.Document.ReadBack
import ContentGraph.Proofs.Document.RoundTrip
import ContentGraph.Proofs.TypeGraph.Correctness
import ContentGraph.Proofs.TypeGraph.Isomorphism
import ContentGraph.Proofs.TypeGraph.History
import ContentGraph.Proofs.Resource.Content
import ContentGraph.Proofs.Store.Runs
import ContentGraph.Proofs.Document.Moves
import ContentGraph.Proofs.Document.History
import ContentGraph.Proofs.Document.Plans
import ContentGraph.Proofs.Document.Grounding
import ContentGraph.Proofs.Document.StoreOrder
import ContentGraph.Proofs.Document.Marks
import ContentGraph.Proofs.Document.Queue
import ContentGraph.Proofs.Document.Termination
import ContentGraph.Proofs.TypeGraph.Closed
import ContentGraph.Proofs.TypeGraph.Identity
import ContentGraph.Proofs.Document.Buildable
import ContentGraph.Proofs.Document.Refusal
import ContentGraph.Proofs.Document.Foreseen
import ContentGraph.Proofs.Resolution.Concurrency
import ContentGraph.Proofs.Resolution.Truthful
import ContentGraph.Proofs.Payload.Conformance
import ContentGraph.Proofs.TypeGraph.Later
import ContentGraph.Proofs.Document.Portions
import ContentGraph.Proofs.Document.Records
import ContentGraph.Proofs.Document.Recorded
import ContentGraph.Proofs.Document.Written
import ContentGraph.Proofs.Document.OwnSchemas
import ContentGraph.Proofs.Document.Rewriting
import ContentGraph.Proofs.Creation.Commuting
import ContentGraph.Proofs.TypeGraph.Nested
import ContentGraph.Proofs.Creation.Schemas
import ContentGraph.Proofs.GraphQL.Creating
import ContentGraph.Proofs.GraphQL.Getting
import ContentGraph.Proofs.GraphQL.TypeNames
import ContentGraph.Proofs.Document.Validation
import ContentGraph.Proofs.Payload.Violations
import ContentGraph.Proofs.GraphQL.FieldNames
import ContentGraph.Proofs.Document.SchemaOrder
import ContentGraph.Proofs.TypeGraph.Calling
import ContentGraph.Proofs.TypeGraph.Bounded
import ContentGraph.Proofs.Resource.Lossless
import ContentGraph.Proofs.Document.Navigation
import ContentGraph.Proofs.Creation.Building
import ContentGraph.Proofs.TypeGraph.Walking
import ContentGraph.Proofs.Log.Levels
import ContentGraph.Proofs.Settings.Recovery
import ContentGraph.Proofs.GraphQL.NameRoles
