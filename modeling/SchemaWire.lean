import SchemaWire.Document.OfYaml
import SchemaWire.Generate
import SchemaWire.Main
import SchemaWire.Files.FileSystem
import SchemaWire.Proofs.Descriptor.WellFormed
import SchemaWire.Proofs.Traversal.Preorder
import SchemaWire.Proofs.Naming.Claimant
import SchemaWire.Proofs.Naming.Scope
import SchemaWire.Proofs.Index.Declaration
import SchemaWire.Proofs.Index.Visit
import SchemaWire.Proofs.Wire.Conversion
import SchemaWire.Proofs.Index.Registration
import SchemaWire.Proofs.Index.Registrable
import SchemaWire.Proofs.Naming.Declared
import SchemaWire.Proofs.Naming.Module
import SchemaWire.Proofs.Semantics.Evaluation
import SchemaWire.Proofs.Semantics.Conformance
import SchemaWire.Proofs.Semantics.Construct
import SchemaWire.Proofs.Semantics.Program
import SchemaWire.Proofs.Semantics.Transfer
import SchemaWire.Proofs.Semantics.Image
import SchemaWire.Proofs.Semantics.RoundTrip
import SchemaWire.Proofs.Index.Operations
import SchemaWire.Proofs.Index.RootOrder
import SchemaWire.Proofs.Descriptor.Rendered
import SchemaWire.Proofs.Printed.CommentText
import SchemaWire.Proofs.Printed.Comments
import SchemaWire.Proofs.Scoping.Mention
import SchemaWire.Proofs.Scoping.Conversion
import SchemaWire.Proofs.Scoping.Wrapper
import SchemaWire.Proofs.Scoping.Helpers
import SchemaWire.Proofs.Scoping.Module
import SchemaWire.Proofs.Descriptor.Members
import SchemaWire.Proofs.Semantics.TypeValues
import SchemaWire.Proofs.Index.Isolation
import SchemaWire.Proofs.Descriptor.Bare
import SchemaWire.Proofs.Descriptor.Notes
import SchemaWire.Proofs.Naming.Predefined
import SchemaWire.Proofs.Index.Growth
import SchemaWire.Proofs.Route.BuiltIn
import SchemaWire.Proofs.Index.Diagnostics
import SchemaWire.Proofs.Document.DocumentForm
import SchemaWire.Proofs.Wire.Alike
import SchemaWire.Proofs.Semantics.Dispatch
import SchemaWire.Proofs.Cli.UpToDate
import SchemaWire.Proofs.Reading.Conversion
import SchemaWire.Proofs.Descriptor.UnionLaws
import SchemaWire.Proofs.Descriptor.Origin
import SchemaWire.Proofs.Descriptor.Tags
import SchemaWire.Proofs.Index.EnumDeclarations
import SchemaWire.Proofs.Index.EnumTags
import SchemaWire.Proofs.Route.Braces
import SchemaWire.Proofs.Route.Template
import SchemaWire.Proofs.Descriptor.NormalForm
import SchemaWire.Proofs.Route.FormFields
import SchemaWire.Proofs.Route.PathValue
import SchemaWire.Proofs.Scoping.Reads
import SchemaWire.Proofs.Route.Request
import SchemaWire.Proofs.Index.FieldNames
import SchemaWire.Proofs.Reading.Literal
import SchemaWire.Proofs.Reading.TemplateText
import SchemaWire.Proofs.Route.Url
import SchemaWire.Proofs.Semantics.AnyProgram
import SchemaWire.Proofs.Route.ErrorBody
import SchemaWire.Proofs.Scoping.Hygiene
import SchemaWire.Proofs.Wire.ArmLiterals
import SchemaWire.Proofs.Diff.Faithful
import SchemaWire.Proofs.Document.LayoutIndependence
