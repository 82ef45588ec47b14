import IslBindings.Argument
import IslBindings.Argument.OfTokens
import IslBindings.CType
import IslBindings.Catalogue.BoundClass
import IslBindings.Catalogue.Class
import IslBindings.Catalogue.Header
import IslBindings.Catalogue.Name
import IslBindings.Catalogue.ValueType
import IslBindings.Code.Layout
import IslBindings.Code.Literal
import IslBindings.CommandLine
import IslBindings.Declaration
import IslBindings.Digest
import IslBindings.Files.Error
import IslBindings.Files.Path
import IslBindings.Files.System
import IslBindings.Files.Tree
import IslBindings.Generation
import IslBindings.Header.Directive
import IslBindings.Header.Expansion
import IslBindings.Header.LogicalLine
import IslBindings.Header.Macro
import IslBindings.Header.MacroTable
import IslBindings.Header.Prototype
import IslBindings.Header.SearchPath
import IslBindings.Main
import IslBindings.Method
import IslBindings.Nesting
import IslBindings.ParseError
import IslBindings.Placement
import IslBindings.Registration
import IslBindings.Registry
import IslBindings.Run
import IslBindings.Settings
import IslBindings.Shape
import IslBindings.SkipReason
import IslBindings.Text.Alphanumeric
import IslBindings.Text.Blank
import IslBindings.Text.Capital
import IslBindings.Text.Lines
import IslBindings.Text.Ranges
import IslBindings.Text.Search
import IslBindings.Token
import IslBindings.Toml.Document
import IslBindings.Toml.Moment
import IslBindings.Toml.Number
import IslBindings.Toml.Quoted
import IslBindings.Trampoline
import IslBindings.Upcast
import IslBindings.Wrapper
import IslBindings.Wrapper.Contribution
import IslBindings.Wrapper.Conversion
import IslBindings.Wrapper.Statement
import IslBindings.Proofs.Text.Rows
import IslBindings.Proofs.Token.Layout
import IslBindings.Proofs.Header.Pieces
import IslBindings.Proofs.Header.Search
import IslBindings.Proofs.Header.Noise
import IslBindings.Proofs.Header.Collected
import IslBindings.Proofs.Header.Found
import IslBindings.Proofs.Header.Extraction
import IslBindings.Proofs.Nesting
import IslBindings.Proofs.Argument.Printing
import IslBindings.Proofs.Argument.RoundTrip
import IslBindings.Proofs.Declaration
import IslBindings.Proofs.Registry.Reachable
import IslBindings.Proofs.Generation.Entries
import IslBindings.Proofs.Wrapper.Undocumented
import IslBindings.Proofs.Generation.Accounting
import IslBindings.Proofs.Wrapper.Positions
import IslBindings.Proofs.Wrapper.Stages
import IslBindings.Proofs.Wrapper.Ownership
import IslBindings.Proofs.Wrapper.WellShaped
import IslBindings.Proofs.Wrapper.Acceptance
import IslBindings.Proofs.Generation.Retry
import IslBindings.Proofs.Header.Definition
import IslBindings.Proofs.Digest
import IslBindings.Proofs.Files.Target
import IslBindings.Proofs.Files.Effect
import IslBindings.Proofs.Header.Sources
import IslBindings.Proofs.Header.Cache
import IslBindings.Proofs.Header.History
import IslBindings.Proofs.Registry.Contents
import IslBindings.Proofs.Registry.Table
import IslBindings.Proofs.Generation.Bindings
import IslBindings.Proofs.Generation.Functions
import IslBindings.Proofs.Registry.FirstDeclared
import IslBindings.Proofs.Wrapper.Alignment
import IslBindings.Proofs.Registration
import IslBindings.Proofs.Generation.Independence
import IslBindings.Proofs.Generation.Superseded
import IslBindings.Proofs.Generation.Order
import IslBindings.Proofs.Generation.Additions
import IslBindings.Proofs.Run
import IslBindings.Proofs.Argument.Grammar
import IslBindings.Proofs.Placement
import IslBindings.Proofs.Registry.Appended
import IslBindings.Proofs.Wrapper.Context
import IslBindings.Proofs.Wrapper.Returned
import IslBindings.Proofs.Wrapper.Repointing
import IslBindings.Proofs.Header.Division
import IslBindings.Proofs.Header.Composition
import IslBindings.Proofs.Header.FoundTexts
import IslBindings.Proofs.Header.Segments
import IslBindings.Proofs.Header.Locality
import IslBindings.Proofs.Header.Levels
import IslBindings.Proofs.Header.Substitution
import IslBindings.Proofs.Trampoline
import IslBindings.Proofs.Token.Spelling
import IslBindings.Proofs.Header.Directive
import IslBindings.Proofs.Registration.Documentation
import IslBindings.Proofs.Trampoline.Ownership
import IslBindings.Proofs.Nesting.Walk
import IslBindings.Proofs.Header.Arguments
