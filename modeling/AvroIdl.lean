import AvroIdl.Project
import AvroIdl.Refactor.Rename
import AvroIdl.Refactor.Delete
import AvroIdl.Completion
import AvroIdl.Main
import AvroIdl.Proofs.Parser.Automaton
import AvroIdl.Proofs.Parser.Progress
import AvroIdl.Proofs.Parser.Stack
import AvroIdl.Proofs.Parser.Reading
import AvroIdl.Proofs.Parser.Actions
import AvroIdl.Proofs.Parser.Frames
import AvroIdl.Proofs.Parser.Elements
import AvroIdl.Proofs.Tree.Hole
import AvroIdl.Proofs.Tree.Lossless
import AvroIdl.Proofs.Tree.History
import AvroIdl.Proofs.Grammar
import AvroIdl.Proofs.Parser.Language
import AvroIdl.Proofs.Parser.Order
import AvroIdl.Proofs.Parser.Acceptance
import AvroIdl.Proofs.Parser.Context
import AvroIdl.Proofs.Parser.Likeness
import AvroIdl.Proofs.Tree.Incremental
import AvroIdl.Proofs.Project.Timeline
import AvroIdl.Proofs.Refactor.Rename
import AvroIdl.Proofs.Check.Graph
import AvroIdl.Proofs.Check.Cycle
import AvroIdl.Proofs.Project.Index
import AvroIdl.Proofs.Project.Session
import AvroIdl.Proofs.Parser.Undated
import AvroIdl.Proofs.Symbol.Undated
import AvroIdl.Proofs.Check.Undated
import AvroIdl.Proofs.Project.Agreement
import AvroIdl.Proofs.Loader
import AvroIdl.Proofs.Project.Account
import AvroIdl.Proofs.Project.Opening
import AvroIdl.Proofs.Token.Restart
import AvroIdl.Proofs.Parser.Placement
import AvroIdl.Proofs.Tree.Formed
import AvroIdl.Proofs.Symbol.Coverage
import AvroIdl.Proofs.Symbol.Namespace
import AvroIdl.Proofs.Completion.Context
import AvroIdl.Proofs.Tree.Offset
import AvroIdl.Proofs.Symbol.Spelling
import AvroIdl.Proofs.Project.Documents
import AvroIdl.Proofs.Resolution.Unique
import AvroIdl.Proofs.Completion.Acceptance
import AvroIdl.Proofs.Project.Visibility
import AvroIdl.Proofs.Project.Disabled
import AvroIdl.Proofs.Tree.Sharing
import AvroIdl.Proofs.Tree.Errors
import AvroIdl.Proofs.Parser.Loops
import AvroIdl.Proofs.Parser.Recovery
import AvroIdl.Proofs.Tree.Innermost
import AvroIdl.Proofs.Json.Place
import AvroIdl.Proofs.Resolution.Order
import AvroIdl.Proofs.Check.Duplicates
import AvroIdl.Proofs.Project.Duplicates
import AvroIdl.Proofs.Symbol.Repetition
import AvroIdl.Proofs.Symbol.Schema
import AvroIdl.Proofs.Check.Shortest
import AvroIdl.Proofs.Token.Integer
import AvroIdl.Proofs.Check.Default
import AvroIdl.Proofs.Refactor.InTurn
import AvroIdl.Proofs.Text.Position
import AvroIdl.Proofs.Tree.Compaction
import AvroIdl.Proofs.Parser.Balance
import AvroIdl.Proofs.Refactor.Deletion
