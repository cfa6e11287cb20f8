import SchemaModels.Main
import SchemaModels.Proofs.Plan.Search
import SchemaModels.Proofs.Plan.Emission
import SchemaModels.Proofs.Document.Discriminator
import SchemaModels.Proofs.Unit.Mentions
import SchemaModels.Proofs.Unit.Resolution
import SchemaModels.Proofs.Unit.Plain
import SchemaModels.Proofs.Unit.Exports
import SchemaModels.Proofs.Unit.Names
import SchemaModels.Proofs.Json.Keys
import SchemaModels.Proofs.Canonical.Conforms
import SchemaModels.Proofs.Canonical.Dispatch
import SchemaModels.Proofs.Canonical.Idempotent
import SchemaModels.Proofs.Canonical.Ends
import SchemaModels.Proofs.Canonical.Agreement
import SchemaModels.Proofs.Repair.Rounds
import SchemaModels.Proofs.Json.Outline
import SchemaModels.Proofs.Canonical.Rearranged
import SchemaModels.Proofs.Unit.Tagged
import SchemaModels.Proofs.Files.Directories
import SchemaModels.Proofs.Command.Delivery
import SchemaModels.Proofs.Command.Generate
import SchemaModels.Proofs.Command.Check
import SchemaModels.Proofs.Document.Order
import SchemaModels.Proofs.Document.Nullable
import SchemaModels.Proofs.Spec.Binding
import SchemaModels.Proofs.Unit.Bounds
import SchemaModels.Proofs.Plan.Binding
import SchemaModels.Proofs.Unit.TagFields
import SchemaModels.Proofs.Unit.Keys
import SchemaModels.Proofs.Unit.Defaults
import SchemaModels.Proofs.Validator.Container
import SchemaModels.Proofs.Unit.Annotations
import SchemaModels.Proofs.Document.Literals
import SchemaModels.Proofs.Unit.Imports
import SchemaModels.Proofs.Repair.Report
import SchemaModels.Proofs.Repair.Wrappers
import SchemaModels.Proofs.Repair.Imports
import SchemaModels.Proofs.Repair.Bodies
import SchemaModels.Proofs.Model.Docstring
import SchemaModels.Proofs.Unit.Comments
import SchemaModels.Proofs.Validator.Regex
import SchemaModels.Proofs.Model.StringLiteral
import SchemaModels.Proofs.Model.Collision
import SchemaModels.Proofs.Model.LiteralValue
import SchemaModels.Proofs.Unit.Endings
import SchemaModels.Proofs.Model.MemberName
import SchemaModels.Proofs.Model.Escapes
import SchemaModels.Proofs.Unit.Headers
import SchemaModels.Proofs.Command.Again
