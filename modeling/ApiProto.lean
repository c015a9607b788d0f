import ApiProto.Command.Conversion
import ApiProto.Command.Request
import ApiProto.Command.Run
import ApiProto.Command.Usage
import ApiProto.Command.Word
import ApiProto.Compile.Operation
import ApiProto.Compile.Package
import ApiProto.Compile.Schema
import ApiProto.Compile.State
import ApiProto.Document.Build
import ApiProto.Document.LocalReference
import ApiProto.Document.Schema
import ApiProto.Document.SchemaReader
import ApiProto.Document.Spec
import ApiProto.Document.SpecReader
import ApiProto.Error
import ApiProto.Json.Reader
import ApiProto.Libraries
import ApiProto.Main
import ApiProto.Name.Case
import ApiProto.Name.Endpoint
import ApiProto.Name.Title
import ApiProto.Number.Binary64
import ApiProto.Number.DecimalText
import ApiProto.Number.IntegerText
import ApiProto.Number.Shortest
import ApiProto.Proofs.Agreement
import ApiProto.Proofs.AnnotatedFields
import ApiProto.Proofs.AtRest
import ApiProto.Proofs.Awaiting
import ApiProto.Proofs.Boxing
import ApiProto.Proofs.Closed
import ApiProto.Proofs.Coverage
import ApiProto.Proofs.DeclarationLog
import ApiProto.Proofs.DepthFirst
import ApiProto.Proofs.DocumentTranslation
import ApiProto.Proofs.EnumElements
import ApiProto.Proofs.FailedRuns
import ApiProto.Proofs.FieldNumbers
import ApiProto.Proofs.FiniteTargets
import ApiProto.Proofs.Fits
import ApiProto.Proofs.GraphTranslation
import ApiProto.Proofs.Growth
import ApiProto.Proofs.Homes
import ApiProto.Proofs.ImportCompleteness
import ApiProto.Proofs.Imports
import ApiProto.Proofs.InlinedUnfolding
import ApiProto.Proofs.Inlining
import ApiProto.Proofs.Leftovers
import ApiProto.Proofs.LocalChains
import ApiProto.Proofs.LocalReferences
import ApiProto.Proofs.Lockstep
import ApiProto.Proofs.MapPlacement
import ApiProto.Proofs.Mapless
import ApiProto.Proofs.MergedParameters
import ApiProto.Proofs.NameResolution
import ApiProto.Proofs.NamedLists
import ApiProto.Proofs.NamedReaders
import ApiProto.Proofs.NullableContainers
import ApiProto.Proofs.OperationAgreement
import ApiProto.Proofs.OptionAgreement
import ApiProto.Proofs.OptionIndependence
import ApiProto.Proofs.OrderIndependence
import ApiProto.Proofs.Ownership
import ApiProto.Proofs.PackageTranslation
import ApiProto.Proofs.Phases
import ApiProto.Proofs.Places
import ApiProto.Proofs.PlainName
import ApiProto.Proofs.PrintedOptions
import ApiProto.Proofs.Procedures
import ApiProto.Proofs.Reachable
import ApiProto.Proofs.Reading
import ApiProto.Proofs.ReferenceChains
import ApiProto.Proofs.Registration
import ApiProto.Proofs.ReorderedFiles
import ApiProto.Proofs.Reordering
import ApiProto.Proofs.Requests
import ApiProto.Proofs.Resolution
import ApiProto.Proofs.ResolutionEnds
import ApiProto.Proofs.ResolvedPackages
import ApiProto.Proofs.RpcOptions
import ApiProto.Proofs.Run
import ApiProto.Proofs.SchemaAgreement
import ApiProto.Proofs.SchemaFits
import ApiProto.Proofs.SchemaMaps
import ApiProto.Proofs.ScopeSoundness
import ApiProto.Proofs.Settling
import ApiProto.Proofs.SharedParameters
import ApiProto.Proofs.SharedWrappers
import ApiProto.Proofs.SiblingNames
import ApiProto.Proofs.SkippedProcedures
import ApiProto.Proofs.SnakeNames
import ApiProto.Proofs.SpecReading
import ApiProto.Proofs.SpelledNames
import ApiProto.Proofs.Splicing
import ApiProto.Proofs.Step
import ApiProto.Proofs.StoredTypes
import ApiProto.Proofs.UniqueReading
import ApiProto.Proofs.UrlText
import ApiProto.Proofs.VersionIndependence
import ApiProto.Proofs.Visibility
import ApiProto.Proofs.Walk
import ApiProto.Proofs.WellNamedPackages
import ApiProto.Proofs.WithoutComments
import ApiProto.Proofs.WordBreaks
import ApiProto.Proto.Builtin
import ApiProto.Proto.File
import ApiProto.Proto.Graph
import ApiProto.Proto.Lines
import ApiProto.Proto.Numbering
import ApiProto.Proto.Printer
import ApiProto.Proto.Reference
import ApiProto.Proto.Registry
import ApiProto.Proto.Resolver
import ApiProto.Sorting
import ApiProto.Source.Decode
import ApiProto.Source.Inline
import ApiProto.Source.Load
import ApiProto.Source.Loader
import ApiProto.Source.World
import ApiProto.Text.Base64
import ApiProto.Text.Character
import ApiProto.Text.Cut
import ApiProto.Text.Escape
import ApiProto.Text.PrintableTable
import ApiProto.Text.UpperTable
import ApiProto.Text.Utf8
import ApiProto.Uri.Host
import ApiProto.Uri.Path
import ApiProto.Uri.Percent
import ApiProto.Uri.Reference
import ApiProto.Uri.Url
import ApiProto.Value.Access
import ApiProto.Value.Basic
import ApiProto.Value.Calendar
import ApiProto.Value.Equality
import ApiProto.Value.Literal
import ApiProto.Value.Pointer
import ApiProto.Yaml.Cursor
import ApiProto.Yaml.ImplicitTag
import ApiProto.Yaml.Lexer
import ApiProto.Yaml.Node
import ApiProto.Yaml.Property
import ApiProto.Yaml.Reader
import ApiProto.Yaml.Scalar
import ApiProto.Yaml.ScalarValue
import ApiProto.Yaml.Token
