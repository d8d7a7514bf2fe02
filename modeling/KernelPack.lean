import KernelPack.Artifact.Literal
import KernelPack.Artifact.Source
import KernelPack.Bytes
import KernelPack.CommandLine.Command
import KernelPack.CommandLine.Duration
import KernelPack.CommandLine.Flag
import KernelPack.CommandLine.Program
import KernelPack.Config.Basic
import KernelPack.Config.Sources
import KernelPack.Kernel.Basic
import KernelPack.Kernel.Log
import KernelPack.Kernel.Pack
import KernelPack.Kernel.Watcher
import KernelPack.Lexis.KernelGrammar
import KernelPack.Lexis.Lexer
import KernelPack.Lexis.Pattern
import KernelPack.Lexis.Token
import KernelPack.Main
import KernelPack.Path.Basic
import KernelPack.Path.Glob
import KernelPack.Proofs.Artifact.Definition
import KernelPack.Proofs.Artifact.Literal
import KernelPack.Proofs.Bytes.Cutting
import KernelPack.Proofs.Kernel.Assembly
import KernelPack.Proofs.Outcome
import KernelPack.Proofs.Renaming.Check
import KernelPack.Proofs.Renaming.Tokens
import KernelPack.Proofs.Source.Blanks
import KernelPack.Proofs.Text.Rune
import KernelPack.Renaming.Apply
import KernelPack.Renaming.Check
import KernelPack.Renaming.Table
import KernelPack.Report.Json
import KernelPack.Report.LogLine
import KernelPack.Report.Percent
import KernelPack.Report.Table
import KernelPack.Report.Writer
import KernelPack.Settings.Decode
import KernelPack.Settings.File
import KernelPack.Settings.Folding
import KernelPack.Settings.Json
import KernelPack.Settings.Layers
import KernelPack.Settings.Starter
import KernelPack.Settings.Value
import KernelPack.Settings.Yaml
import KernelPack.Source.Comments
import KernelPack.Source.Compaction
import KernelPack.Source.Lines
import KernelPack.Storage.FileStore
import KernelPack.Storage.Machine
import KernelPack.Storage.Tree
import KernelPack.Text.Blank
import KernelPack.Text.Double
import KernelPack.Text.Letter
import KernelPack.Text.Numeral
import KernelPack.Text.Printable
import KernelPack.Text.Quoted
import KernelPack.Text.Rune
import KernelPack.Text.Timestamp
import KernelPack.Text.Word
import KernelPack.Proofs.Lexis.Coverage
import KernelPack.Proofs.Lexis.Token
import KernelPack.Proofs.Kernel.LineFeeds
import KernelPack.Proofs.Kernel.Outputs
import KernelPack.Proofs.Config.Validity
import KernelPack.Proofs.Kernel.Watching
import KernelPack.Proofs.Storage.Tree
import KernelPack.Proofs.Kernel.Packing
import KernelPack.Proofs.Kernel.Session
import KernelPack.Proofs.Kernel.Effects
import KernelPack.Proofs.Kernel.Runs
import KernelPack.Proofs.CommandLine.Build
import KernelPack.Proofs.Config.Isolation
import KernelPack.Proofs.Bytes.Words
import KernelPack.Proofs.Renaming.Strategies
import KernelPack.Proofs.Config.Sources
import KernelPack.Proofs.Config.Starter
import KernelPack.Proofs.Lexis.Leading
import KernelPack.Proofs.Lexis.Spelling
import KernelPack.Proofs.Lexis.Stability
import KernelPack.Proofs.Lexis.Relexing
import KernelPack.Proofs.Lexis.Renamed
import KernelPack.Proofs.Lexis.Identifiers
import KernelPack.Proofs.Lexis.Neighbours
import KernelPack.Proofs.Renaming.Structure
import KernelPack.Proofs.Source.Gaps
import KernelPack.Proofs.Artifact.Names
import KernelPack.Proofs.Lexis.Glyphs
import KernelPack.Proofs.Lexis.Tracking
import KernelPack.Proofs.Lexis.Readings
import KernelPack.Proofs.Lexis.Heads
import KernelPack.Proofs.Lexis.Tightening
import KernelPack.Proofs.Source.Characters
import KernelPack.Proofs.Kernel.Reported
import KernelPack.Proofs.Text.Trimming
import KernelPack.Proofs.Source.Comments
import KernelPack.Proofs.Source.Spacing
import KernelPack.Proofs.Source.KeptComments
import KernelPack.Proofs.Renaming.Order
import KernelPack.Proofs.Renaming.Sealing
import KernelPack.Proofs.Kernel.Escaping
import KernelPack.Proofs.Artifact.Chunks
import KernelPack.Proofs.Artifact.Capacity
import KernelPack.Proofs.Artifact.Alignment
import KernelPack.Proofs.Config.Selection
import KernelPack.Proofs.Text.Numeral
import KernelPack.Proofs.Renaming.Positional
import KernelPack.Proofs.Bytes.Order
import KernelPack.Proofs.Lexis.Counting
import KernelPack.Proofs.CommandLine.Listing
import KernelPack.Proofs.Artifact.Bodies
import KernelPack.Proofs.Kernel.Statistics
import KernelPack.Proofs.Source.Lines
import KernelPack.Proofs.Storage.Looking
import KernelPack.Proofs.Config.Matching
import KernelPack.Proofs.Path.Relative
