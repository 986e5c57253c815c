import ClientBuild.Adaptation
import ClientBuild.Assoc
import ClientBuild.CommandLine.Arguments
import ClientBuild.CommandLine.Clock
import ClientBuild.CommandLine.Command
import ClientBuild.CommandLine.Execute
import ClientBuild.CommandLine.Usage
import ClientBuild.Declaration.Brace
import ClientBuild.Declaration.Collision
import ClientBuild.Declaration.Flatten
import ClientBuild.Declaration.Layout
import ClientBuild.Declaration.Name
import ClientBuild.Declaration.ServiceObject
import ClientBuild.Declaration.Synthesis
import ClientBuild.Declaration.Tree
import ClientBuild.Declaration.TypeMap
import ClientBuild.Failure
import ClientBuild.FilePath
import ClientBuild.Generation.Encode
import ClientBuild.Generation.Gate
import ClientBuild.Generation.Run
import ClientBuild.Generation.Session
import ClientBuild.Json.Basic
import ClientBuild.Json.Number
import ClientBuild.Json.Outline
import ClientBuild.Json.Printer
import ClientBuild.Json.Raw
import ClientBuild.Json.Reader
import ClientBuild.Json.Record
import ClientBuild.Json.Token
import ClientBuild.Locale
import ClientBuild.Main
import ClientBuild.Markup.Attribute
import ClientBuild.Markup.ClassName
import ClientBuild.Markup.ComplexValue
import ClientBuild.Markup.Expression
import ClientBuild.Markup.Page
import ClientBuild.Markup.Transform
import ClientBuild.Number.Binary64
import ClientBuild.Number.Decimal
import ClientBuild.Number.Digits
import ClientBuild.Number.Fixed
import ClientBuild.Number.Shortest
import ClientBuild.Schema.Cache
import ClientBuild.Schema.Comments
import ClientBuild.Schema.Entity
import ClientBuild.Schema.Read
import ClientBuild.Schema.Response
import ClientBuild.Schema.Write
import ClientBuild.Settings.Basic
import ClientBuild.Settings.Encode
import ClientBuild.Settings.File
import ClientBuild.Store
import ClientBuild.Style.Declaration
import ClientBuild.Style.Length
import ClientBuild.Style.SafeName
import ClientBuild.Style.Scan
import ClientBuild.Style.Sheet
import ClientBuild.Style.Utility
import ClientBuild.Target
import ClientBuild.Template.Basic
import ClientBuild.Template.Declarations
import ClientBuild.Text.Blank
import ClientBuild.Text.Search
import ClientBuild.Text.UpperCase
import ClientBuild.Text.WordTable
import ClientBuild.Toml.Basic
import ClientBuild.Toml.Document
import ClientBuild.Toml.Scalar
import ClientBuild.Toml.Text
import ClientBuild.Proofs.Json.NumberText
import ClientBuild.Proofs.Json.ValueText
import ClientBuild.Proofs.Assoc
import ClientBuild.Proofs.Json.Kept
import ClientBuild.Proofs.Schema.Comments
import ClientBuild.Proofs.Json.Record
import ClientBuild.Proofs.Schema.Codec
import ClientBuild.Proofs.Schema.Cache
import ClientBuild.Proofs.Store
import ClientBuild.Proofs.Generation.History
import ClientBuild.Proofs.Declaration.Bare
import ClientBuild.Proofs.Generation.Outage
import ClientBuild.Proofs.Generation.Publication
import ClientBuild.Proofs.Generation.Calls
import ClientBuild.Proofs.Generation.RunGate
import ClientBuild.Proofs.Generation.Triggers
import ClientBuild.Proofs.Declaration.Controller
import ClientBuild.Proofs.Declaration.Parts
import ClientBuild.Proofs.Declaration.Brace
import ClientBuild.Proofs.Declaration.Flatten
import ClientBuild.Proofs.Declaration.Whole
import ClientBuild.Proofs.Declaration.Chain
import ClientBuild.Proofs.Declaration.Declared
import ClientBuild.Proofs.Declaration.Groups
import ClientBuild.Proofs.Declaration.Leaves
import ClientBuild.Proofs.Declaration.Lines
import ClientBuild.Proofs.Declaration.ServiceTypes
import ClientBuild.Proofs.Declaration.Unique
import ClientBuild.Proofs.Declaration.Layout
import ClientBuild.Proofs.Declaration.Marks
import ClientBuild.Proofs.Declaration.Ambient
import ClientBuild.Proofs.Markup.Agreement
import ClientBuild.Proofs.Style.CustomProperties
import ClientBuild.Proofs.Declaration.Lifting
import ClientBuild.Proofs.Markup.Frame
import ClientBuild.Proofs.Markup.Stability
import ClientBuild.Proofs.Style.Faithful
import ClientBuild.Proofs.Style.Selector
import ClientBuild.Proofs.Declaration.Nodes
import ClientBuild.Proofs.Markup.Blocks
import ClientBuild.Proofs.Style.Lengths
import ClientBuild.Proofs.Markup.ClassList
import ClientBuild.Proofs.Markup.Binding
import ClientBuild.Proofs.Declaration.Entities
import ClientBuild.Proofs.Declaration.Objects
import ClientBuild.Proofs.Declaration.Outermost
import ClientBuild.Proofs.Declaration.Shapes
import ClientBuild.Proofs.Declaration.OneLine
import ClientBuild.Proofs.Declaration.Again
import ClientBuild.Proofs.Declaration.Calm
import ClientBuild.Proofs.Declaration.Fenced
import ClientBuild.Proofs.Declaration.Keys
import ClientBuild.Proofs.Declaration.Tight
import ClientBuild.Proofs.Declaration.Retyped
import ClientBuild.Proofs.Locale
import ClientBuild.Proofs.Declaration.LaidOut
import ClientBuild.Proofs.Declaration.ServiceComments
import ClientBuild.Proofs.LocaleKeys
import ClientBuild.Proofs.Markup.Values
import ClientBuild.Proofs.Schema.Commented
import ClientBuild.Proofs.Declaration.Permissions
import ClientBuild.Proofs.Declaration.Reordered
import ClientBuild.Proofs.Markup.Nesting
import ClientBuild.Proofs.Markup.Rows
import ClientBuild.Proofs.Json.Members
import ClientBuild.Proofs.Schema.Columns
import ClientBuild.Proofs.Schema.Fields
import ClientBuild.Proofs.Schema.Nulls
import ClientBuild.Proofs.Text.Bytes
import ClientBuild.Proofs.Declaration.ClosingBrace
import ClientBuild.Proofs.Declaration.KeyUnion
import ClientBuild.Proofs.Markup.Splicing
import ClientBuild.Proofs.Style.SheetScan
