import MillenniumDB.Lib.Runs
import MillenniumDB.Lib.EpsilonRuns
import MillenniumDB.Lib.Explore
import MillenniumDB.Lib.Iterators
import MillenniumDB.Lib.BreadthFirst
import MillenniumDB.Lib.MergeRuns
import MillenniumDB.Lib.ExtendibleHash
import MillenniumDB.ImportAutomaton
import MillenniumDB.ObjectIds
import MillenniumDB.QuadImport
import MillenniumDB.WrongLines
import MillenniumDB.ImplicitEdges
import MillenniumDB.BptWriter
import MillenniumDB.DiskVector
import MillenniumDB.DiskMerge
import MillenniumDB.Lib.Counts
import MillenniumDB.StatsProcessor
import MillenniumDB.EdgeTable
import MillenniumDB.QuadInserts
import MillenniumDB.InsertFacts
import MillenniumDB.ImportIndexes
import MillenniumDB.ImportRecords
import MillenniumDB.LeafCheck
import MillenniumDB.EqualEdges
import MillenniumDB.InsertRuns
import MillenniumDB.EdgeNumbers
import MillenniumDB.CatalogCounts
import MillenniumDB.RdfTerms
import MillenniumDB.StringsHash
import MillenniumDB.StringsHashIds
import MillenniumDB.StringsHashBuckets
import MillenniumDB.PathExpressions
import MillenniumDB.RpqAutomaton
import MillenniumDB.RpqBase
import MillenniumDB.RpqMerge
import MillenniumDB.RpqTransform
import MillenniumDB.PathAutomata
import MillenniumDB.QuadModel
import MillenniumDB.BfsIterEnum
import MillenniumDB.BfsSimpleEnum
import MillenniumDB.BfsCheck
import MillenniumDB.UnfixedComposite
import MillenniumDB.PathPlan
import MillenniumDB.PathIter
import MillenniumDB.AllShortest
import MillenniumDB.AllShortestWalks
import MillenniumDB.AllShortestResults
import MillenniumDB.RdfImport
import MillenniumDB.RdfIndexes
import MillenniumDB.GraphObjectOrder
import MillenniumDB.InlinedObjects
import MillenniumDB.RdfObjectOrder
import MillenniumDB.Lib.Restarts
import MillenniumDB.PathSearches
import MillenniumDB.PathResets
import MillenniumDB.Lib.OuterJoins
import MillenniumDB.GraphPatterns
import MillenniumDB.OptionalTrees
import MillenniumDB.WhereMatches
import MillenniumDB.RdfDecimals
import MillenniumDB.RdfDateTimes
import MillenniumDB.RdfDecimalForms
import MillenniumDB.RdfDateForms
import MillenniumDB.BufferManager
import MillenniumDB.AppendPage
import MillenniumDB.TableBlocks
import MillenniumDB.RandomAccessTable
import MillenniumDB.CatalogFile
import MillenniumDB.CatalogPlans
import MillenniumDB.Lib.WellDesigned
import MillenniumDB.PatternVisitor
import MillenniumDB.PatternCheck
import MillenniumDB.WrittenPatterns
import MillenniumDB.UnjointObjects
import MillenniumDB.SparqlOptionals
import MillenniumDB.Lib.Walks
import MillenniumDB.SparqlPaths
import MillenniumDB.ConditionOrder
import MillenniumDB.PatternOrders
import MillenniumDB.HashJoinPlans
import MillenniumDB.SelingerOptimizer
import MillenniumDB.IndexScans
import MillenniumDB.TriplePlans
import MillenniumDB.EdgePlans
import MillenniumDB.SparqlEstimates
import MillenniumDB.DistinctHash
import MillenniumDB.StringManager
import MillenniumDB.ImportedStrings
import MillenniumDB.StringIters
import MillenniumDB.StringLengths
import MillenniumDB.StringLiterals
import MillenniumDB.IteratorEnds
import MillenniumDB.MergeableStates
import MillenniumDB.WhereArithmetic
import MillenniumDB.RpqTrim
import MillenniumDB.Lib.BoundedPowers
import MillenniumDB.PatternPaths
import MillenniumDB.AllShortestCheck
import MillenniumDB.Lib.FallibleIterators
import MillenniumDB.AStarRows
import MillenniumDB.RdpqSearches
import MillenniumDB.RdpqRuns
import MillenniumDB.RdpqResults
import MillenniumDB.Lib.Routing
import MillenniumDB.BptDirectory
import MillenniumDB.BptBuilds
import MillenniumDB.LeapfrogBpt
import MillenniumDB.LeapfrogEdgeTable
import MillenniumDB.KeyValueHashBucket
import MillenniumDB.KeyValueHash
import MillenniumDB.KeyValueHashSplit
import MillenniumDB.KeyValueHashRuns
import MillenniumDB.KeyValueHashResults
import MillenniumDB.KeyValueHashBucketSort
import MillenniumDB.HashJoinGrace
import MillenniumDB.PathManager
import MillenniumDB.TupleCollection
import MillenniumDB.OrderBy
import MillenniumDB.OrderedFile
import MillenniumDB.OrderedFileMerge
import MillenniumDB.RpqDistances
import MillenniumDB.WhereExpressions
import MillenniumDB.RdfDateOrder
import MillenniumDB.RdfDecimalOrder
import MillenniumDB.Lib.Slots
import MillenniumDB.BptInserts
import MillenniumDB.BptInsertDirs
import MillenniumDB.BptInsertPaths
import MillenniumDB.BptInsertLeaves
import MillenniumDB.BptInsertRuns
import MillenniumDB.BptReads
import MillenniumDB.BptImported
