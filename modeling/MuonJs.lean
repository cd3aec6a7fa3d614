import MuonJs.Cache.AofWorker
import MuonJs.Cache.Errors
import MuonJs.Cache.Numbers
import MuonJs.Cache.Streams
import MuonJs.Cache.Scan
import MuonJs.Cache.Truncation
import MuonJs.Cache.Multi
import MuonJs.Cache.Queued
import MuonJs.Cache.Copying
import MuonJs.Cache.Aggregates
import MuonJs.Cache.Framing
import MuonJs.Cache.Representation
import MuonJs.Cache.Counters
import MuonJs.Cache.Removal
import MuonJs.Cache.Globbing
import MuonJs.Cache.SetAlgebra
import MuonJs.Cache.FullScan
import MuonJs.Cache.Deadlines
import MuonJs.Cache.SortedSets
import MuonJs.Cache.StreamQueries
import MuonJs.Cache.WritePaths
import MuonJs.Cache.LogReplay
import MuonJs.Cache.PubSub
import MuonJs.Cache.Digest
import MuonJs.Script.Properties
import MuonJs.Script.Exceptions
import MuonJs.Script.Precedence
import MuonJs.Script.JsonRoundTrip
import MuonJs.Script.Balance
import MuonJs.Script.StringToNumber
import MuonJs.Script.BitOperands
import MuonJs.Script.Truthiness
import MuonJs.Script.Equality
import MuonJs.Script.LoopUpdates
import MuonJs.Lib.Utf8
import MuonJs.Script.Comments
import MuonJs.Script.UnitView
import MuonJs.Lib.Occurrences
import MuonJs.Script.Replacing
import MuonJs.Lib.BubbleSort
import MuonJs.Script.DoubleOrder
import MuonJs.Script.Sorting
import MuonJs.Lib.ByteStore
import MuonJs.Script.TypedArrays
import MuonJs.Script.Splitting
import MuonJs.Lib.CodeUnits
import MuonJs.Script.Literals
import MuonJs.Cache.FieldMaps
import MuonJs.Cache.Metrics
import MuonJs.Script.Keys
import MuonJs.Script.Markers
import MuonJs.Script.JsonAcceptance
import MuonJs.Lib.Bisection
import MuonJs.Script.SourcePositions
import MuonJs.Lib.Numerals
import MuonJs.Script.IntegerPrinters
import MuonJs.Lib.LowBits
import MuonJs.Lib.Blocks
import MuonJs.Script.TaggedWords
import MuonJs.Script.BumpAllocator
import MuonJs.Lib.HashIndex
import MuonJs.Script.Interning
import MuonJs.Lib.WordBuffers
import MuonJs.Script.Arrays
import MuonJs.Script.TryStatement
