import RmdOptions.Main
import RmdOptions.Proofs.Panel.Commit
import RmdOptions.Proofs.Text.Places
import RmdOptions.Proofs.Text.Pieces
import RmdOptions.Proofs.Text.Lines
import RmdOptions.Proofs.Token.Layout
import RmdOptions.Proofs.Chunk.Row
import RmdOptions.Proofs.Chunk.Label
import RmdOptions.Proofs.Chunk.Closing
import RmdOptions.Proofs.Panel.Baseline
import RmdOptions.Proofs.Call.Arguments
import RmdOptions.Proofs.Options.Plain
import RmdOptions.Proofs.Token.Plain
import RmdOptions.Proofs.Options.Written
import RmdOptions.Proofs.Options.Slot
import RmdOptions.Proofs.Panel.ReadBack
import RmdOptions.Proofs.Call.Complete
import RmdOptions.Proofs.Options.Merge
import RmdOptions.Proofs.Panel.Stable
import RmdOptions.Proofs.Panel.Surface
import RmdOptions.Proofs.Panel.Frame
import RmdOptions.Proofs.Panel.Header
import RmdOptions.Proofs.Text.Between
import RmdOptions.Proofs.Token.Tiling
import RmdOptions.Proofs.Token.Outline
import RmdOptions.Proofs.Panel.Structure
import RmdOptions.Proofs.Options.Writers
import RmdOptions.Proofs.Panel.Commits
import RmdOptions.Proofs.Token.Nesting
import RmdOptions.Proofs.Token.Inside
import RmdOptions.Proofs.Options.Sorted
import RmdOptions.Proofs.Text.LineEnding
import RmdOptions.Proofs.Panel.Reopen
import RmdOptions.Proofs.Panel.Open
import RmdOptions.Proofs.Command.InPlace
import RmdOptions.Proofs.Text.Breaks
import RmdOptions.Proofs.Document.Writing
import RmdOptions.Proofs.Document.Operations
import RmdOptions.Proofs.Panel.Deleting
import RmdOptions.Proofs.Json.Spelling
import RmdOptions.Proofs.Json.Grammar
import RmdOptions.Proofs.Json.Written
import RmdOptions.Proofs.Config.File
import RmdOptions.Proofs.Json.LineEnding
import RmdOptions.Proofs.Config.LineEnding
import RmdOptions.Proofs.Command.Effects
import RmdOptions.Proofs.Command.LineEnding
import RmdOptions.Proofs.Token.Brackets
import RmdOptions.Proofs.Call.Refused
import RmdOptions.Proofs.Call.Outcome
import RmdOptions.Proofs.Call.Opening
import RmdOptions.Proofs.Token.Single
import RmdOptions.Proofs.Options.Names
import RmdOptions.Proofs.Token.Stretch
import RmdOptions.Proofs.Options.Layouts
import RmdOptions.Proofs.Options.Canonical
import RmdOptions.Proofs.Token.Longest
import RmdOptions.Proofs.Token.Order
import RmdOptions.Proofs.Token.Strings
import RmdOptions.Proofs.Token.Stepping
