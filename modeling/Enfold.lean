import Enfold.Assoc
import Enfold.Binding.Datum
import Enfold.Binding.Heap
import Enfold.Binding.Instance
import Enfold.Binding.Read
import Enfold.Binding.View
import Enfold.Binding.Write
import Enfold.Channel
import Enfold.Collection
import Enfold.Customization.Annotated
import Enfold.Customization.Control
import Enfold.Customization.Directive
import Enfold.Customization.Settings
import Enfold.Failure
import Enfold.Files
import Enfold.Json.Reader
import Enfold.Json.Token
import Enfold.Json.Writer
import Enfold.Model.Assign
import Enfold.Model.Basic
import Enfold.Model.Build
import Enfold.Model.Description
import Enfold.Model.Edit
import Enfold.Model.Property
import Enfold.Model.Raw
import Enfold.Model.Rename
import Enfold.Model.View
import Enfold.Model.Walk
import Enfold.Naming.Derive
import Enfold.Naming.Plural
import Enfold.Naming.Sanitize
import Enfold.Naming.Suffix
import Enfold.Notice
import Enfold.Options.Basic
import Enfold.Options.Load
import Enfold.Options.Token
import Enfold.Pass.Candidate
import Enfold.Pass.Placement
import Enfold.Pass.Run
import Enfold.Pass.Summary
import Enfold.Pass.Wrapper
import Enfold.Pattern.Basic
import Enfold.Pattern.Compiler
import Enfold.Pattern.Reader
import Enfold.Pattern.Token
import Enfold.Proofs.Assoc
import Enfold.Proofs.Binding.Alike
import Enfold.Proofs.Binding.Conforming
import Enfold.Proofs.Binding.Container
import Enfold.Proofs.Binding.Document
import Enfold.Proofs.Binding.Instantiation
import Enfold.Proofs.Binding.Items
import Enfold.Proofs.Binding.Mixed
import Enfold.Proofs.Binding.Restored
import Enfold.Proofs.Binding.Returned
import Enfold.Proofs.Binding.Taken
import Enfold.Proofs.Binding.Untouched
import Enfold.Proofs.Binding.Written
import Enfold.Proofs.Customization.Decided
import Enfold.Proofs.Customization.Given
import Enfold.Proofs.Customization.Grammar
import Enfold.Proofs.Customization.LeftOpen
import Enfold.Proofs.Customization.Names
import Enfold.Proofs.Customization.Validated
import Enfold.Proofs.Customization.Written
import Enfold.Proofs.Except
import Enfold.Proofs.Files
import Enfold.Proofs.Model.Ancestors
import Enfold.Proofs.Model.Built
import Enfold.Proofs.Model.Edit
import Enfold.Proofs.Model.Filing
import Enfold.Proofs.Model.Implementations
import Enfold.Proofs.Model.Links
import Enfold.Proofs.Model.Listing
import Enfold.Proofs.Model.Loaded
import Enfold.Proofs.Model.Malformed
import Enfold.Proofs.Model.Move
import Enfold.Proofs.Model.Names
import Enfold.Proofs.Model.Rename
import Enfold.Proofs.Model.Siblings
import Enfold.Proofs.Model.Substitution
import Enfold.Proofs.Model.Walk
import Enfold.Proofs.Naming.Derive
import Enfold.Proofs.Naming.Identifier
import Enfold.Proofs.Naming.Plural
import Enfold.Proofs.Naming.Sanitize
import Enfold.Proofs.Naming.Suffix
import Enfold.Proofs.Naming.Words
import Enfold.Proofs.Options.Override
import Enfold.Proofs.Options.Spelling
import Enfold.Proofs.Options.Tokens
import Enfold.Proofs.Pass.Advance
import Enfold.Proofs.Pass.Again
import Enfold.Proofs.Pass.Capacity
import Enfold.Proofs.Pass.Counts
import Enfold.Proofs.Pass.Derived
import Enfold.Proofs.Pass.Episodes
import Enfold.Proofs.Pass.Factories
import Enfold.Proofs.Pass.Failing
import Enfold.Proofs.Pass.Fields
import Enfold.Proofs.Pass.FreeNames
import Enfold.Proofs.Pass.Held
import Enfold.Proofs.Pass.Implementations
import Enfold.Proofs.Pass.Inheritance
import Enfold.Proofs.Pass.Interrupted
import Enfold.Proofs.Pass.Mixed
import Enfold.Proofs.Pass.Outcome
import Enfold.Proofs.Pass.Ownership
import Enfold.Proofs.Pass.Paths
import Enfold.Proofs.Pass.Placement
import Enfold.Proofs.Pass.Precedence
import Enfold.Proofs.Pass.Restored
import Enfold.Proofs.Pass.RoundTrip
import Enfold.Proofs.Pass.Run
import Enfold.Proofs.Pass.Selection
import Enfold.Proofs.Pass.Shape
import Enfold.Proofs.Pass.Spared
import Enfold.Proofs.Pass.Stages
import Enfold.Proofs.Pass.Synthesis
import Enfold.Proofs.Pass.TextRuns
import Enfold.Proofs.Pass.Transparent
import Enfold.Proofs.Pass.Types
import Enfold.Proofs.Pass.Uniqueness
import Enfold.Proofs.Pass.Wrapping
import Enfold.Proofs.Text.Parts
import Enfold.Session.Basic
import Enfold.Session.Registry
import Enfold.Source.Address
import Enfold.Source.Load
import Enfold.Template
import Enfold.Text.Blank
import Enfold.Text.Case
import Enfold.Text.Identifier
import Enfold.Text.Printable
import Enfold.Text.Range
import Enfold.Text.Word
import Enfold.Value.Basic
import Enfold.Value.Decimal
import Enfold.Value.Mapping
import Enfold.Value.Same
import Enfold.Value.Shown
import Enfold.Xml.Element
import Enfold.Xml.Name
import Enfold.Xml.Reader
import Enfold.Xml.Token
import Enfold.Xml.Writer
