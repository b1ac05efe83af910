import ChessEval.Board.Attack
import ChessEval.Board.Bitboard
import ChessEval.Board.Change
import ChessEval.Board.Fen
import ChessEval.Board.Legal
import ChessEval.Board.Material
import ChessEval.Board.Move
import ChessEval.Board.MoveText
import ChessEval.Board.Piece
import ChessEval.Board.Play
import ChessEval.Board.Position
import ChessEval.Board.Square
import ChessEval.Board.Zobrist
import ChessEval.Evaluate.Blend
import ChessEval.Evaluate.Constants
import ChessEval.Evaluate.Trace
import ChessEval.File.ClassifierFile
import ChessEval.File.CompactFile
import ChessEval.File.Layout
import ChessEval.File.NetworkFile
import ChessEval.File.Reader
import ChessEval.Main
import ChessEval.Network.Accumulator
import ChessEval.Network.Classifier
import ChessEval.Network.Feature
import ChessEval.Network.Kernel
import ChessEval.Network.LaneEvaluation
import ChessEval.Network.Lanes
import ChessEval.Network.Layer
import ChessEval.Network.Line
import ChessEval.Network.Networks
import ChessEval.Network.Single
import ChessEval.Network.Synthetic
import ChessEval.Network.Threat
import ChessEval.Network.Transformer
import ChessEval.Network.WeightCode
import ChessEval.Proofs.Board.Attacking
import ChessEval.Proofs.Board.ExactChanges
import ChessEval.Proofs.Board.FenGrammar
import ChessEval.Proofs.Board.FenPlacement
import ChessEval.Proofs.Board.FenText
import ChessEval.Proofs.Board.FlippedPlay
import ChessEval.Proofs.Board.Following
import ChessEval.Proofs.Board.Games
import ChessEval.Proofs.Board.Generating
import ChessEval.Proofs.Board.Hashing
import ChessEval.Proofs.Board.KingCaptures
import ChessEval.Proofs.Board.LegalMoves
import ChessEval.Proofs.Board.MoveTexts
import ChessEval.Proofs.Board.PieceList
import ChessEval.Proofs.Board.Placement
import ChessEval.Proofs.Board.Playing
import ChessEval.Proofs.Board.RankLookup
import ChessEval.Proofs.Board.Reading
import ChessEval.Proofs.Board.Rights
import ChessEval.Proofs.Board.Rules
import ChessEval.Proofs.Board.Sliding
import ChessEval.Proofs.Board.SquareSet
import ChessEval.Proofs.Board.Symmetry
import ChessEval.Proofs.Board.TakingBack
import ChessEval.Proofs.Board.Trying
import ChessEval.Proofs.Board.UncheckedMoves
import ChessEval.Proofs.Board.Vacated
import ChessEval.Proofs.Board.WellFormed
import ChessEval.Proofs.Board.Word
import ChessEval.Proofs.Evaluate.Alike
import ChessEval.Proofs.Evaluate.Checked
import ChessEval.Proofs.Evaluate.ExactEvaluation
import ChessEval.Proofs.Evaluate.ExactMaterial
import ChessEval.Proofs.Evaluate.Monotonicity
import ChessEval.Proofs.Evaluate.SymmetricEvaluation
import ChessEval.Proofs.File.ClassifierFiles
import ChessEval.Proofs.File.Codes
import ChessEval.Proofs.File.CompactFiles
import ChessEval.Proofs.File.Formats
import ChessEval.Proofs.File.FullFiles
import ChessEval.Proofs.File.Layouts
import ChessEval.Proofs.File.Prefixes
import ChessEval.Proofs.File.Readers
import ChessEval.Proofs.Network.Activation
import ChessEval.Proofs.Network.AttackPairs
import ChessEval.Proofs.Network.CacheRuns
import ChessEval.Proofs.Network.Courses
import ChessEval.Proofs.Network.ExactLayers
import ChessEval.Proofs.Network.FeatureNumbers
import ChessEval.Proofs.Network.FusedHead
import ChessEval.Proofs.Network.LaneArithmetic
import ChessEval.Proofs.Network.LaneEvaluations
import ChessEval.Proofs.Network.OrientedListing
import ChessEval.Proofs.Network.Refreshing
import ChessEval.Proofs.Network.Summing
import ChessEval.Proofs.Network.SymmetricFeatures
import ChessEval.Proofs.Network.ThreatChanges
import ChessEval.Proofs.Network.ThreatLists
import ChessEval.Proofs.Network.Tracking
import ChessEval.Proofs.Network.Updating
import ChessEval.Proofs.Session.Availability
import ChessEval.Proofs.Session.BundleNames
import ChessEval.Proofs.Session.Commands
import ChessEval.Proofs.Session.GameTexts
import ChessEval.Proofs.Session.Loading
import ChessEval.Proofs.Session.PlayedTexts
import ChessEval.Proofs.Session.Publishing
import ChessEval.Proofs.Session.Settings
import ChessEval.Proofs.Text.Cutting
import ChessEval.Proofs.Text.Grammar
import ChessEval.Random.ChaCha
import ChessEval.Session.Command
import ChessEval.Session.FileOptions
import ChessEval.Session.Session
import ChessEval.Session.Setup
import ChessEval.Session.Store
import ChessEval.Text.Blank
import ChessEval.Text.Decimal
import ChessEval.Text.FixedPlaces
import ChessEval.Text.Lines
import ChessEval.Text.Utf8
import ChessEval.Proofs.Session.Settings
