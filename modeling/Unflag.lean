import Unflag.Condition.Outline
import Unflag.Disk.Host
import Unflag.Program
import Unflag.Resolution.Rewriter
import Unflag.MemoryStore
import Unflag.Proofs.TriviaScan
import Unflag.Proofs.TokenScan
import Unflag.Proofs.AssemblySteps
import Unflag.Proofs.Choice
import Unflag.Proofs.Members
import Unflag.Proofs.ParsedTree
import Unflag.Proofs.Resolved
import Unflag.Proofs.Compiled
import Unflag.Proofs.OnePass
import Unflag.Proofs.ParsedShape
import Unflag.Proofs.Occurrences
import Unflag.Proofs.Pruning
import Unflag.Proofs.TokenFrame
import Unflag.Proofs.LineLocal
import Unflag.Proofs.Reading
import Unflag.Proofs.Reassembly
import Unflag.Proofs.Regrouping
import Unflag.Proofs.Rescan
import Unflag.Proofs.ItemWords
import Unflag.Proofs.ItemBounds
import Unflag.Proofs.ItemNeighbours
import Unflag.Proofs.SecondPass
import Unflag.Proofs.Deletion
import Unflag.Proofs.WellFormed
import Unflag.Proofs.IntegerLiteral
import Unflag.Proofs.ConditionGrammar
import Unflag.Proofs.BlockGrammar
import Unflag.Proofs.ConditionNames
import Unflag.Proofs.TwoGroupings
import Unflag.Proofs.FlagOrder
import Unflag.Proofs.FileStep
import Unflag.Proofs.Mention
import Unflag.Proofs.Separation
import Unflag.Proofs.Interleaving
import Unflag.Proofs.Places
import Unflag.Proofs.FileChange
import Unflag.Proofs.FoundFiles
import Unflag.Proofs.Accounting
import Unflag.Proofs.DryRun
import Unflag.Proofs.RunFaults
import Unflag.Proofs.ExitCode
import Unflag.Proofs.Guard
import Unflag.Proofs.PathOrder
import Unflag.Proofs.ToolAnswer
import Unflag.Proofs.KeptLines
import Unflag.Proofs.ChainLayout
import Unflag.Proofs.Preprocessor
import Unflag.Proofs.FirstDeclaration
import Unflag.Proofs.ItemBorders
import Unflag.Proofs.KeptComments
import Unflag.Proofs.DeclarationPrefix
import Unflag.Proofs.ChainRemoval
import Unflag.Proofs.StringExtent
import Unflag.Proofs.LineNumbers
import Unflag.Proofs.Numeral
import Unflag.Proofs.AtomicReplacement
import Unflag.Proofs.WalkedFiles
import Unflag.Proofs.ConditionWords
import Unflag.Proofs.RenderedCondition
import Unflag.Proofs.DirectiveLine
import Unflag.Proofs.FirstToken
import Unflag.Proofs.ReportViews
import Unflag.Proofs.LoadedValue
