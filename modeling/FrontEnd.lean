import FrontEnd.Literal
import FrontEnd.Session
import FrontEnd.Proofs.Invariant
import FrontEnd.Proofs.Balance
import FrontEnd.Proofs.Quiet
import FrontEnd.Proofs.Operation
import FrontEnd.Proofs.Passage
import FrontEnd.Proofs.Derivation
import FrontEnd.Proofs.Progress
import FrontEnd.Proofs.Tree.Written
import FrontEnd.Proofs.Yields
import FrontEnd.Proofs.Soundness
import FrontEnd.Proofs.TokensKept
import FrontEnd.Proofs.Precedence
import FrontEnd.Proofs.DerivedNodes
import FrontEnd.Proofs.Outline
import FrontEnd.Proofs.Heads
import FrontEnd.Proofs.ReadBack
import FrontEnd.Proofs.GivenTrees
import FrontEnd.Proofs.Completeness
import FrontEnd.Proofs.RoundTrip
import FrontEnd.Proofs.Writing
import FrontEnd.Proofs.Languages
import FrontEnd.Proofs.StoppingPoint
import FrontEnd.Proofs.NestingLimit
import FrontEnd.Proofs.NestingBound
import FrontEnd.Proofs.Grouping
import FrontEnd.Proofs.OperatorChains
import FrontEnd.Proofs.Candidate
import FrontEnd.Proofs.LongestLexeme
import FrontEnd.Proofs.Scanning
import FrontEnd.Proofs.Partition
import FrontEnd.Proofs.Decoding
import FrontEnd.Proofs.QuotedLiterals
import FrontEnd.Proofs.IntegerValues
import FrontEnd.Proofs.LiteralNodes
import FrontEnd.Proofs.ReadNodes
import FrontEnd.Proofs.WellFormed
import FrontEnd.Proofs.BlockShape
import FrontEnd.Proofs.ExposedStructs
import FrontEnd.Proofs.StructLiteralFlag
import FrontEnd.Proofs.ScopeEvents
import FrontEnd.Proofs.ScopeReplay
import FrontEnd.Proofs.ScopeWalk
import FrontEnd.Proofs.ScopeStack
import FrontEnd.Proofs.Metered
import FrontEnd.Proofs.Pace
import FrontEnd.Proofs.Termination
import FrontEnd.Proofs.Tree.View
import FrontEnd.Proofs.Lockstep
import FrontEnd.Proofs.LockedRules
import FrontEnd.Proofs.PatternResolution
import FrontEnd.Proofs.EndOfInput
import FrontEnd.Proofs.Placeless
import FrontEnd.Proofs.Layout
import FrontEnd.Proofs.DeeperStart
import FrontEnd.Proofs.TwoLayers
import FrontEnd.Proofs.Foresight
import FrontEnd.Proofs.LookaheadBound
import FrontEnd.Proofs.Hindsight
import FrontEnd.Proofs.Composition
import FrontEnd.Proofs.Renaming
import FrontEnd.Proofs.Tree.Piece
import FrontEnd.Proofs.Laid
import FrontEnd.Proofs.Laying
import FrontEnd.Proofs.SpanRules
import FrontEnd.Proofs.SourceSpans
import FrontEnd.Proofs.Brackets
import FrontEnd.Proofs.Comments
import FrontEnd.Proofs.CursorMoves
import FrontEnd.Proofs.CastBases
import FrontEnd.Proofs.PrintedTrees
