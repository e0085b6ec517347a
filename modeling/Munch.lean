import Munch.Main
import Munch.Pattern.Trace
import Munch.Program.Reader
import Munch.Program.Direct
import Munch.Regex.Desugar
import Munch.Regex.Printer
import Munch.Source.Slice
import Munch.Lexer.Script
import Munch.CommandLine.Outcome
import Munch.Proofs.PatternSet
import Munch.Proofs.Closure
import Munch.Proofs.Code
import Munch.Proofs.Run
import Munch.Proofs.Adjacent
import Munch.Proofs.Follow
import Munch.Proofs.Sites
import Munch.Proofs.Positions
import Munch.Proofs.Exploration
import Munch.Proofs.Subsets
import Munch.Proofs.Windows
import Munch.Proofs.Kernels
import Munch.Proofs.LongestMatch
import Munch.Proofs.Merging
import Munch.Proofs.Minimize
import Munch.Proofs.Rounds
import Munch.Proofs.Tracking
import Munch.Proofs.Blocks
import Munch.Proofs.Direct
import Munch.Proofs.BlockThreads
import Munch.Proofs.Engines
import Munch.Proofs.Layout
import Munch.Proofs.Determinization
import Munch.Proofs.Irreducible
import Munch.Proofs.Validity
import Munch.Proofs.EmptyLoops
import Munch.Proofs.ValidBlocks
import Munch.Proofs.BlockShape
import Munch.Proofs.BranchFree
import Munch.Proofs.Stale
import Munch.Proofs.Tracker
import Munch.Proofs.Resumption
import Munch.Proofs.LineColumn
import Munch.Proofs.Delivery
import Munch.Proofs.Streaming
import Munch.Proofs.Classes
import Munch.Proofs.Grammar
import Munch.Proofs.Traps
import Munch.Proofs.OneThread
import Munch.Proofs.Mixed
import Munch.Proofs.Compilation
import Munch.Proofs.Operations
import Munch.Proofs.InStep
import Munch.Proofs.Continuation
import Munch.Proofs.ReadErrors
import Munch.Proofs.LookAhead
import Munch.Proofs.Recovery
import Munch.Proofs.ScanOutcome
import Munch.Proofs.Nullability
import Munch.Proofs.ByteSets
import Munch.Proofs.ReaderRefinement
import Munch.Proofs.RoundTrip
import Munch.Proofs.ProgramText
import Munch.Proofs.Spelling
import Munch.Proofs.Generated
import Munch.Proofs.Holes
import Munch.Proofs.Connected
import Munch.Proofs.Lockstep
import Munch.Proofs.Places
import Munch.Proofs.PositionWords
import Munch.Proofs.Marked
import Munch.Proofs.Emitted
import Munch.Proofs.Readings
import Munch.Proofs.ReadPrograms
import Munch.Proofs.OpenGroups
import Munch.Proofs.Failures
import Munch.Proofs.Desugaring
import Munch.Proofs.Trim
import Munch.Proofs.Located
import Munch.Proofs.Progress
import Munch.Proofs.Legible
import Munch.Proofs.TreeText
import Munch.Proofs.TableEdges
import Munch.Proofs.TableText
import Munch.Proofs.TableGraph
import Munch.Proofs.WordSums
import Munch.Proofs.Worklist
import Munch.Proofs.InsertionOrder
import Munch.Proofs.Agenda
import Munch.Proofs.FixedPoints
import Munch.Proofs.Postorder
import Munch.Proofs.Occupied
import Munch.Proofs.Subtrees
import Munch.Proofs.Cursor
