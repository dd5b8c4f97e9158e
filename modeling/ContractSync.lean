import ContractSync.Command.Line
import ContractSync.Command.Run
import ContractSync.Config
import ContractSync.Contract.Canonical
import ContractSync.Contract.Lift
import ContractSync.Contract.SchemaPass
import ContractSync.Decimal.Shortest
import ContractSync.Diagnostics
import ContractSync.Document.Alike
import ContractSync.Document.Display
import ContractSync.Document.Json.Reader
import ContractSync.Document.Json.Token
import ContractSync.Document.Json.Writer
import ContractSync.Document.Load
import ContractSync.Document.Moment
import ContractSync.Document.Value
import ContractSync.Document.Yaml.Block
import ContractSync.Document.Yaml.Cursor
import ContractSync.Document.Yaml.Implicit
import ContractSync.Document.Yaml.Layout
import ContractSync.Document.Yaml.Node
import ContractSync.Document.Yaml.Plain
import ContractSync.Document.Yaml.Quoted
import ContractSync.Document.Yaml.Reader
import ContractSync.Document.Yaml.Scalars
import ContractSync.Document.Yaml.Tag
import ContractSync.Document.Yaml.Writer
import ContractSync.Edit.Apply
import ContractSync.Emit.Declaration
import ContractSync.Emit.Extractor
import ContractSync.Emit.Handler
import ContractSync.Emit.QueryStruct
import ContractSync.Emit.Registration
import ContractSync.Emit.Testing
import ContractSync.Emit.Text
import ContractSync.Error
import ContractSync.Fault
import ContractSync.Main
import ContractSync.Model.Basic
import ContractSync.Name.Identifier
import ContractSync.Name.Unique
import ContractSync.PathName
import ContractSync.Proofs.Contract.Examples
import ContractSync.Proofs.Contract.Layout
import ContractSync.Proofs.Contract.Lift
import ContractSync.Proofs.Contract.LiftReferences
import ContractSync.Proofs.Contract.Normal
import ContractSync.Proofs.Contract.Parameters
import ContractSync.Proofs.Contract.Placement
import ContractSync.Proofs.Contract.References
import ContractSync.Proofs.Contract.Replacing
import ContractSync.Proofs.Contract.Schemas
import ContractSync.Proofs.Contract.Shared
import ContractSync.Proofs.Document.Entries
import ContractSync.Proofs.Edit.Arguments
import ContractSync.Proofs.Edit.Attribute
import ContractSync.Proofs.Edit.Field
import ContractSync.Proofs.Edit.Import
import ContractSync.Proofs.Edit.Keep
import ContractSync.Proofs.Edit.Registration
import ContractSync.Proofs.Edit.Retype
import ContractSync.Proofs.Emit.Arguments
import ContractSync.Proofs.Emit.Declaration
import ContractSync.Proofs.Emit.Handler
import ContractSync.Proofs.Emit.Pieces
import ContractSync.Proofs.Emit.QueryStruct
import ContractSync.Proofs.Emit.Registration
import ContractSync.Proofs.Emit.TypeText
import ContractSync.Proofs.Emit.WireName
import ContractSync.Proofs.Model.Closure
import ContractSync.Proofs.Model.Enumerations
import ContractSync.Proofs.Model.Names
import ContractSync.Proofs.Model.Notes
import ContractSync.Proofs.Name.Bare
import ContractSync.Proofs.Name.Component
import ContractSync.Proofs.Name.Distinct
import ContractSync.Proofs.Name.Module
import ContractSync.Proofs.Name.Reserved
import ContractSync.Proofs.Name.Words
import ContractSync.Proofs.Names
import ContractSync.Proofs.Outcome
import ContractSync.Proofs.Reference.Addressing
import ContractSync.Proofs.Resolving
import ContractSync.Proofs.Route.Agreeing
import ContractSync.Proofs.Route.Following
import ContractSync.Proofs.Route.Merging
import ContractSync.Proofs.Route.Overriding
import ContractSync.Proofs.Route.Relocation
import ContractSync.Proofs.Route.Reordering
import ContractSync.Proofs.Route.ResponseOrder
import ContractSync.Proofs.Route.TypeNames
import ContractSync.Proofs.Rust.Append
import ContractSync.Proofs.Rust.AttributeList
import ContractSync.Proofs.Rust.CutItem
import ContractSync.Proofs.Rust.Delimiters
import ContractSync.Proofs.Rust.Dress
import ContractSync.Proofs.Rust.Dressable
import ContractSync.Proofs.Rust.FieldEntry
import ContractSync.Proofs.Rust.FieldText
import ContractSync.Proofs.Rust.Forest
import ContractSync.Proofs.Rust.Geometry
import ContractSync.Proofs.Rust.Grouping
import ContractSync.Proofs.Rust.Grow
import ContractSync.Proofs.Rust.Identifier
import ContractSync.Proofs.Rust.ImportLine
import ContractSync.Proofs.Rust.Insert
import ContractSync.Proofs.Rust.ItemText
import ContractSync.Proofs.Rust.Items
import ContractSync.Proofs.Rust.LexEnd
import ContractSync.Proofs.Rust.LexStep
import ContractSync.Proofs.Rust.Line
import ContractSync.Proofs.Rust.Lossless
import ContractSync.Proofs.Rust.MemberText
import ContractSync.Proofs.Rust.Move
import ContractSync.Proofs.Rust.MoveItem
import ContractSync.Proofs.Rust.MoveTree
import ContractSync.Proofs.Rust.Place
import ContractSync.Proofs.Rust.Reader
import ContractSync.Proofs.Rust.ReaderArena
import ContractSync.Proofs.Rust.ReaderEntry
import ContractSync.Proofs.Rust.ReaderItem
import ContractSync.Proofs.Rust.ReaderLayout
import ContractSync.Proofs.Rust.ReaderScan
import ContractSync.Proofs.Rust.ReaderTotal
import ContractSync.Proofs.Rust.RecordEnd
import ContractSync.Proofs.Rust.RecordPlace
import ContractSync.Proofs.Rust.Refill
import ContractSync.Proofs.Rust.RetypeField
import ContractSync.Proofs.Rust.Row
import ContractSync.Proofs.Rust.Run
import ContractSync.Proofs.Rust.Splice
import ContractSync.Proofs.Rust.TupleList
import ContractSync.Proofs.Rust.VariantList
import ContractSync.Proofs.Rust.Word
import ContractSync.Proofs.Rust.Writing
import ContractSync.Proofs.Schema.Bounds
import ContractSync.Proofs.Schema.Faults
import ContractSync.Proofs.Schema.Forms
import ContractSync.Proofs.Schema.Nullable
import ContractSync.Proofs.Schema.TypeNames
import ContractSync.Proofs.Schema.Unions
import ContractSync.Proofs.Sync.File
import ContractSync.Proofs.Sync.Groups
import ContractSync.Proofs.Sync.Growth
import ContractSync.Proofs.Sync.Handlers
import ContractSync.Proofs.Sync.Index
import ContractSync.Proofs.Sync.ModelFile
import ContractSync.Proofs.Sync.Models
import ContractSync.Proofs.Sync.QueryStructs
import ContractSync.Proofs.Sync.Reaching
import ContractSync.Proofs.Sync.Registration
import ContractSync.Proofs.Sync.Retype
import ContractSync.Proofs.Sync.RetypeOrder
import ContractSync.Proofs.Sync.Scaffold
import ContractSync.Proofs.Sync.Tags
import ContractSync.Proofs.Sync.Tests
import ContractSync.Proofs.Text.Bounded
import ContractSync.Proofs.Text.Parts
import ContractSync.Proofs.Text.Ranges
import ContractSync.Proofs.Workspace.FileTree
import ContractSync.Reference.Basic
import ContractSync.Reference.Percent
import ContractSync.Reference.Pointer
import ContractSync.Reference.Uri
import ContractSync.Route.Basic
import ContractSync.Route.Body
import ContractSync.Route.Follow
import ContractSync.Route.HandlerName
import ContractSync.Route.Parameter
import ContractSync.Route.Record
import ContractSync.Route.Response
import ContractSync.Route.Security
import ContractSync.Route.Template
import ContractSync.Rust.Entry
import ContractSync.Rust.Failure
import ContractSync.Rust.Item
import ContractSync.Rust.Lexer
import ContractSync.Rust.Node
import ContractSync.Rust.TokenTree
import ContractSync.Rust.Tree
import ContractSync.Schema.DataType
import ContractSync.Schema.Resolve
import ContractSync.Sync.Block
import ContractSync.Sync.File
import ContractSync.Sync.HandlerModule
import ContractSync.Sync.Index
import ContractSync.Sync.Models
import ContractSync.Sync.Registration
import ContractSync.Sync.Retype
import ContractSync.Sync.Scaffold
import ContractSync.Sync.Tests
import ContractSync.Text.Basic
import ContractSync.Text.CaseMap
import ContractSync.Text.Digit
import ContractSync.Text.Letter
import ContractSync.Text.Printable
import ContractSync.Text.Utf8
import ContractSync.Workspace.Basic
import ContractSync.Workspace.FileTree
