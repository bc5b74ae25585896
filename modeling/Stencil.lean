import Stencil.Block.Basic
import Stencil.Block.Core
import Stencil.CommandLine.Disk
import Stencil.CommandLine.Options
import Stencil.CommandLine.Run
import Stencil.Config
import Stencil.Context
import Stencil.Diagnostic
import Stencil.Double.Binary
import Stencil.Double.Shortest
import Stencil.Double.Text
import Stencil.Encoder
import Stencil.Engine
import Stencil.Entities.Basic
import Stencil.Entities.Described
import Stencil.Entries
import Stencil.EvalError
import Stencil.Expr.Basic
import Stencil.Expr.Eval
import Stencil.Expr.Fold
import Stencil.Expr.Printer
import Stencil.Expr.Same
import Stencil.Failure
import Stencil.Formatters
import Stencil.Json.Number
import Stencil.Json.Reader
import Stencil.Json.Tree
import Stencil.Json.Value
import Stencil.Main
import Stencil.Operator.Apply
import Stencil.Operator.Basic
import Stencil.Parse.Arguments
import Stencil.Parse.Call
import Stencil.Parse.Draft
import Stencil.Parse.Fault
import Stencil.Parse.Tags
import Stencil.Parse.Template
import Stencil.Render.Output
import Stencil.Render.Walk
import Stencil.Signature
import Stencil.Symbol
import Stencil.Template.Basic
import Stencil.Template.Printer
import Stencil.Text.CharClass
import Stencil.Text.Location
import Stencil.Text.Quoted
import Stencil.Token.Basic
import Stencil.Token.Lexer
import Stencil.Token.Literal
import Stencil.Value
import Stencil.Proofs.ParseSteps
import Stencil.Proofs.ScopeArray
import Stencil.Proofs.Splicing
import Stencil.Proofs.Spelling
import Stencil.Proofs.LexerSteps
import Stencil.Proofs.PlainValues
import Stencil.Proofs.Settled
import Stencil.Proofs.SettledArguments
import Stencil.Proofs.CoreBlocks
import Stencil.Proofs.Coverage
import Stencil.Proofs.CoveredParse
import Stencil.Proofs.CoveredTemplates
import Stencil.Proofs.CursorMachine
import Stencil.Proofs.CursorWalk
import Stencil.Proofs.LiveNames
import Stencil.Proofs.ProvidedValues
import Stencil.Proofs.SoundRun
import Stencil.Proofs.CursorReads
import Stencil.Proofs.RequiredVariables
import Stencil.Proofs.DoubleBits
import Stencil.Proofs.GivenExpressions
import Stencil.Proofs.ReadingOn
import Stencil.Proofs.RereadTags
import Stencil.Proofs.CursorErrors
import Stencil.Proofs.CursorStack
import Stencil.Proofs.MissingFiles
import Stencil.Proofs.BoundedRendering
import Stencil.Proofs.Formulas
import Stencil.Proofs.MissingReports
import Stencil.Proofs.PutBack
import Stencil.Proofs.FormulaReading
import Stencil.Proofs.ExactArithmetic
import Stencil.Proofs.PrintedDrafts
import Stencil.Proofs.PrintedTags
import Stencil.Proofs.Replay
import Stencil.Proofs.ArgumentEnds
import Stencil.Proofs.BlockGrammar
import Stencil.Proofs.BlockReading
import Stencil.Proofs.BlockTables
import Stencil.Proofs.ChainLayout
import Stencil.Proofs.ChainWalk
import Stencil.Proofs.ListBoundaries
import Stencil.Proofs.TrimmedRendering
import Stencil.Proofs.Constants
import Stencil.Proofs.RereadRendering
import Stencil.Proofs.StandaloneLines
import Stencil.Proofs.EncodedValues
import Stencil.Proofs.OrdinaryText
import Stencil.Proofs.IndicesInRange
import Stencil.Proofs.PrintedSplices
import Stencil.Proofs.FoldedSentences
import Stencil.Proofs.WhileLoops
import Stencil.Proofs.ForLoops
import Stencil.Proofs.LenientRuns
import Stencil.Proofs.BoundArguments
import Stencil.Proofs.ChosenOverloads
import Stencil.Proofs.Splices
import Stencil.Proofs.ReachedReferences
import Stencil.Proofs.ResolutionRounds
import Stencil.Proofs.RenumberedTables
import Stencil.Proofs.IndependentSplices
import Stencil.Proofs.FaultPositions
import Stencil.Proofs.RetriedArguments
import Stencil.Proofs.CompoundAssignments
import Stencil.Proofs.IntegerLiterals
import Stencil.Proofs.DiskLoading
import Stencil.Proofs.SizeEstimates
import Stencil.Proofs.LoopNames
import Stencil.Proofs.FrontEnd
