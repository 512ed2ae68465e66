import SpellChecker.Data.EditScript
import SpellChecker.Data.KeyedTree
import SpellChecker.Data.Lines
import SpellChecker.Data.Comparator
import SpellChecker.Data.Checker
import SpellChecker.Data.Loop
import SpellChecker.Data.Blocks
import SpellChecker.Data.Mode
import SpellChecker.Data.Interleaving
import SpellChecker.Data.Collective
import SpellChecker.Data.WorkSharing
import SpellChecker.Data.LinkedTree
import SpellChecker.Data.Outline
import SpellChecker.Data.Numeral
import SpellChecker.Machine
import SpellChecker.MPI
import SpellChecker.EditDistance.Table
import SpellChecker.EditDistance.Order
import SpellChecker.EditDistance.Correct
import SpellChecker.EditDistance.Metric
import SpellChecker.EditDistance.Reuse
import SpellChecker.EditDistance.HighWater
import SpellChecker.BKTree.Basic
import SpellChecker.BKTree.Insert
import SpellChecker.BKTree.Stored
import SpellChecker.BKTree.Reachable
import SpellChecker.BKTree.Search
import SpellChecker.BKTree.Heap
import SpellChecker.BKTree.Print
import SpellChecker.Dictionary.Basic
import SpellChecker.Dictionary.Parse
import SpellChecker.Dictionary.RootLen
import SpellChecker.Dictionary.Build
import SpellChecker.Dictionary.Candidates
import SpellChecker.Dictionary.Rebuild
import SpellChecker.Candidates.Basic
import SpellChecker.Candidates.Save
import SpellChecker.Candidates.Format
import SpellChecker.Candidates.SelfCheck
import SpellChecker.Candidates.Pack
import SpellChecker.Candidates.Merge
import SpellChecker.Candidates.RoundTrip
import SpellChecker.Candidates.Width
import SpellChecker.Candidates.Passes
import SpellChecker.Candidates.Threads
import SpellChecker.Slice.Basic
import SpellChecker.Slice.Window
import SpellChecker.Slice.Lines
import SpellChecker.Slice.Partition
import SpellChecker.Slice.Offsets
import SpellChecker.Slice.Reconstruct
import SpellChecker.Pipeline.Answer
import SpellChecker.Pipeline.Shards
import SpellChecker.Pipeline.SingleNode
import SpellChecker.Pipeline.Ranks
import SpellChecker.Pipeline.LastLine
import SpellChecker.Pipeline.Bounds
import SpellChecker.Pipeline.RankCount
import SpellChecker.Cluster.Basic
import SpellChecker.Cluster.Lockstep
import SpellChecker.Cluster.Failure
import SpellChecker.Cluster.EndToEnd
import SpellChecker.Cluster.Report
import SpellChecker.Cluster.Outcome
import SpellChecker.Cluster.Overflow
import SpellChecker.Cluster.Agreement
