import TagRegistry.Command
import TagRegistry.Command.Arguments
import TagRegistry.Command.Job
import TagRegistry.Compilation
import TagRegistry.Declaration
import TagRegistry.Declaration.Format
import TagRegistry.Flag
import TagRegistry.Generation
import TagRegistry.Generation.File
import TagRegistry.Main
import TagRegistry.Operation
import TagRegistry.Output
import TagRegistry.Plan
import TagRegistry.Report
import TagRegistry.Row
import TagRegistry.Table
import TagRegistry.Table.Record
import TagRegistry.Table.Scanner
import TagRegistry.Tag
import TagRegistry.Tag.Code
import TagRegistry.Tag.Cursor
import TagRegistry.Tag.Defaults
import TagRegistry.Tag.Form
import TagRegistry.Text.Blank
import TagRegistry.Text.Digits
import TagRegistry.Text.Line
import TagRegistry.Text.Utf8
import TagRegistry.Toml.Document
import TagRegistry.Toml.Grammar
import TagRegistry.Toml.Layout
import TagRegistry.Toml.Moment
import TagRegistry.Toml.Number
import TagRegistry.Toml.Quoted
import TagRegistry.Toml.Value
import TagRegistry.Tree
import TagRegistry.Tree.Error
import TagRegistry.Tree.Path
import TagRegistry.Tree.View
import TagRegistry.Proofs.Table.Scanner
import TagRegistry.Proofs.Table.Text
import TagRegistry.Proofs.FirstFailure
import TagRegistry.Proofs.Tag.Code
import TagRegistry.Proofs.Tag.Form
import TagRegistry.Proofs.Compilation
import TagRegistry.Proofs.Generation
import TagRegistry.Proofs.Table.Shift
import TagRegistry.Proofs.Table.Concatenation
import TagRegistry.Proofs.Table.Written
import TagRegistry.Proofs.Table.RoundTrip
import TagRegistry.Proofs.Table.Place
import TagRegistry.Proofs.Text.Line
import TagRegistry.Proofs.Report
import TagRegistry.Proofs.Declaration
import TagRegistry.Proofs.Tree
import TagRegistry.Proofs.Output
import TagRegistry.Proofs.Command.Job
import TagRegistry.Proofs.Command
import TagRegistry.Proofs.Table.Masked
import TagRegistry.Proofs.Command.Files
import TagRegistry.Proofs.Command.Regeneration
import TagRegistry.Proofs.Operation
import TagRegistry.Proofs.Flag
import TagRegistry.Proofs.Row.Flag
import TagRegistry.Proofs.Tag.Family
import TagRegistry.Proofs.Table.Comment
import TagRegistry.Proofs.Command.Agreement
import TagRegistry.Proofs.Declaration.Failure
import TagRegistry.Proofs.Tag.Cursor
import TagRegistry.Proofs.Report.Excerpt
import TagRegistry.Proofs.Declaration.Banner
import TagRegistry.Proofs.Table.Line
import TagRegistry.Proofs.Table.Broken
import TagRegistry.Proofs.Compilation.Contribution
import TagRegistry.Proofs.Toml.Quoted
import TagRegistry.Proofs.Toml.Written
import TagRegistry.Proofs.Toml.RoundTrip
import TagRegistry.Proofs.Plan.Written
import TagRegistry.Proofs.Plan.RoundTrip
