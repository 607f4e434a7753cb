import SchemaCompiler.Main
import SchemaCompiler.Proofs.Command.Failure
import SchemaCompiler.Proofs.Components
import SchemaCompiler.Proofs.Containment
import SchemaCompiler.Proofs.Description.Declare
import SchemaCompiler.Proofs.Description.Document
import SchemaCompiler.Proofs.Description.Hierarchy
import SchemaCompiler.Proofs.Description.Model
import SchemaCompiler.Proofs.Document
import SchemaCompiler.Proofs.Entries
import SchemaCompiler.Proofs.Hierarchy.Analysis
import SchemaCompiler.Proofs.Hierarchy.Apart
import SchemaCompiler.Proofs.Hierarchy.Branches
import SchemaCompiler.Proofs.Hierarchy.Declared
import SchemaCompiler.Proofs.Hierarchy.Explicit
import SchemaCompiler.Proofs.Hierarchy.Implicit
import SchemaCompiler.Proofs.Hierarchy.Ownership
import SchemaCompiler.Proofs.Hierarchy.Promotion
import SchemaCompiler.Proofs.Hierarchy.Sums
import SchemaCompiler.Proofs.Json.Binary64
import SchemaCompiler.Proofs.Json.Distinct
import SchemaCompiler.Proofs.Model.Apart
import SchemaCompiler.Proofs.Model.BranchFields
import SchemaCompiler.Proofs.Model.CaseNames
import SchemaCompiler.Proofs.Model.Cases
import SchemaCompiler.Proofs.Model.Compilation
import SchemaCompiler.Proofs.Model.Conflicts
import SchemaCompiler.Proofs.Model.Cycles
import SchemaCompiler.Proofs.Model.Declare
import SchemaCompiler.Proofs.Model.Enumerations
import SchemaCompiler.Proofs.Model.Fields
import SchemaCompiler.Proofs.Model.Identifiers
import SchemaCompiler.Proofs.Model.IntegerEnums
import SchemaCompiler.Proofs.Model.Integers
import SchemaCompiler.Proofs.Model.LegalNames
import SchemaCompiler.Proofs.Model.Members
import SchemaCompiler.Proofs.Model.Names
import SchemaCompiler.Proofs.Model.Nesting
import SchemaCompiler.Proofs.Model.Owners
import SchemaCompiler.Proofs.Model.Presence
import SchemaCompiler.Proofs.Model.References
import SchemaCompiler.Proofs.Model.StringEnums
import SchemaCompiler.Proofs.Model.Tags
import SchemaCompiler.Proofs.Model.Unions
import SchemaCompiler.Proofs.Model.WireNames
import SchemaCompiler.Proofs.Naming.CaseName
import SchemaCompiler.Proofs.Naming.Fresh
import SchemaCompiler.Proofs.Naming.Identifier
import SchemaCompiler.Proofs.Naming.Legal
import SchemaCompiler.Proofs.Naming.Provenance
import SchemaCompiler.Proofs.Render.Comments
import SchemaCompiler.Proofs.Render.Conversions
import SchemaCompiler.Proofs.Render.DefaultFunctions
import SchemaCompiler.Proofs.Render.Dynamic
import SchemaCompiler.Proofs.Render.Emission
import SchemaCompiler.Proofs.Render.FieldType
import SchemaCompiler.Proofs.Render.Literal
import SchemaCompiler.Proofs.Render.MethodConstants
import SchemaCompiler.Proofs.Render.MethodNames
import SchemaCompiler.Proofs.Render.WireName
import SchemaCompiler.Proofs.Reordering.Document
import SchemaCompiler.Proofs.Reordering.Hierarchy
import SchemaCompiler.Proofs.Reordering.Model
import SchemaCompiler.Proofs.Resolve
import SchemaCompiler.Proofs.Tally.Count
import SchemaCompiler.Proofs.Text.Bytes
import SchemaCompiler.Proofs.TypeKeyword
import SchemaCompiler.Proofs.Wire.Alternatives
import SchemaCompiler.Proofs.Wire.IntegerEnum
import SchemaCompiler.Proofs.Wire.Nesting
import SchemaCompiler.Proofs.Wire.Record
import SchemaCompiler.Proofs.Wire.RoundTrip
import SchemaCompiler.Proofs.Wire.Rounding
import SchemaCompiler.Proofs.Wire.Union
import SchemaCompiler.Wire.Types
