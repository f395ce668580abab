import CodeAtlas.Command
import CodeAtlas.Declaration.Basic
import CodeAtlas.Declaration.Table
import CodeAtlas.Document
import CodeAtlas.Element.Basic
import CodeAtlas.Element.Builder
import CodeAtlas.Element.Json
import CodeAtlas.Element.Kind
import CodeAtlas.FileSystem
import CodeAtlas.Graph
import CodeAtlas.Index
import CodeAtlas.Json.Decode
import CodeAtlas.Json.Number
import CodeAtlas.Json.Quoted
import CodeAtlas.Json.Reader
import CodeAtlas.Json.Value
import CodeAtlas.Json.Writer
import CodeAtlas.Log
import CodeAtlas.Main
import CodeAtlas.Markup.Attribute
import CodeAtlas.Markup.Error
import CodeAtlas.Markup.Reference
import CodeAtlas.Markup.Token
import CodeAtlas.Naming.Format
import CodeAtlas.Naming.Json
import CodeAtlas.Outline
import CodeAtlas.Path.Basic
import CodeAtlas.Path.Uri
import CodeAtlas.Position.Point
import CodeAtlas.Position.SourceText
import CodeAtlas.Position.Span
import CodeAtlas.Project.Basic
import CodeAtlas.Project.File
import CodeAtlas.Project.Sources
import CodeAtlas.Solution
import CodeAtlas.Symbol.Basic
import CodeAtlas.Symbol.Binding
import CodeAtlas.Symbol.Reading
import CodeAtlas.Syntax.Classify
import CodeAtlas.Syntax.Cursor
import CodeAtlas.Syntax.Node
import CodeAtlas.Syntax.NodeKind
import CodeAtlas.Syntax.Parts
import CodeAtlas.Text.Ascii
import CodeAtlas.Text.Blank
import CodeAtlas.Text.Split
import CodeAtlas.Text.Utf8
import CodeAtlas.Workspace
import CodeAtlas.Proofs.Listing
import CodeAtlas.Proofs.Cursor
import CodeAtlas.Proofs.Origins
import CodeAtlas.Proofs.Qualification
import CodeAtlas.Proofs.Points
import CodeAtlas.Proofs.Ranges
import CodeAtlas.Proofs.Binding
import CodeAtlas.Proofs.Accessibility
import CodeAtlas.Proofs.Names
import CodeAtlas.Proofs.Paths
import CodeAtlas.Proofs.Indexing
import CodeAtlas.Proofs.Boundaries
import CodeAtlas.Proofs.LineIndex
import CodeAtlas.Proofs.Lines
import CodeAtlas.Proofs.JsonRecords
import CodeAtlas.Proofs.ElementText
import CodeAtlas.Proofs.GraphText
import CodeAtlas.Proofs.TextParts
import CodeAtlas.Proofs.MarkupText
import CodeAtlas.Proofs.ProjectText
import CodeAtlas.Proofs.ProjectFaults
import CodeAtlas.Proofs.CanonicalPaths
import CodeAtlas.Proofs.Documents
import CodeAtlas.Proofs.Spacing
import CodeAtlas.Proofs.Layout
import CodeAtlas.Proofs.LayoutReading
import CodeAtlas.Proofs.LayoutBinding
import CodeAtlas.Proofs.LayoutOutline
import CodeAtlas.Proofs.SolutionLines
import CodeAtlas.Proofs.SolutionText
import CodeAtlas.Proofs.Trees
import CodeAtlas.Proofs.SourceFiles
import CodeAtlas.Proofs.Isolation
import CodeAtlas.Proofs.UriText
import CodeAtlas.Proofs.Phrases
import CodeAtlas.Proofs.Comments
import CodeAtlas.Proofs.Renaming
import CodeAtlas.Proofs.BuildSteps
import CodeAtlas.Proofs.Descent
import CodeAtlas.Proofs.Normalizing
import CodeAtlas.Proofs.Assembly
import CodeAtlas.Proofs.Records
