import Ucsb.BinaryRounding
import Ucsb.ExceptRules
import Ucsb.Workload
import Ucsb.ConsecutiveWords
import Ucsb.BalancedShare
import Ucsb.WorkloadSplit
import Ucsb.IntervalTiling
import Ucsb.WorkloadPartition
import Ucsb.Generators
import Ucsb.CircularMarks
import Ucsb.AcknowledgedWindow
import Ucsb.AcknowledgedHistory
import Ucsb.Worker
import Ucsb.WorkerRun
import Ucsb.InsertOnlyKeys
import Ucsb.InsertCompletes
import Ucsb.MixedKeys
import Ucsb.ReadKeys
import Ucsb.KeyRange
import Ucsb.WorkloadFile
import Ucsb.WorkloadFields
import Ucsb.WorkloadNumbers
import Ucsb.WorkloadValidation
import Ucsb.DelimitedTokens
import Ucsb.WorkloadFilter
import Ucsb.PrintableDuration
import Ucsb.NaturalRounding
import Ucsb.RandomGenerator
import Ucsb.StepSystem
import Ucsb.Tally
import Ucsb.RoundBarrier
import Ucsb.ThreadsFence
import Ucsb.FencePhases
import Ucsb.FenceRounds
import Ucsb.FenceBarrier
import Ucsb.Bench
import Ucsb.BenchBarrier
import Ucsb.BenchLedger
import Ucsb.BenchReport
import Ucsb.BenchEnd
import Ucsb.BenchLast
import Ucsb.BenchFlushing
import Ucsb.BenchFlush
import Ucsb.BenchThrottle
import Ucsb.SortedMap
import Ucsb.WordBytes
import Ucsb.RequestRun
import Ucsb.Operation
import Ucsb.KeyBytes
import Ucsb.DataAccessor
import Ucsb.AdapterLoops
import Ucsb.RocksDbTransaction
import Ucsb.RocksDbRetries
import Ucsb.RocksDb
import Ucsb.RocksDbRefines
import Ucsb.RocksDbBulkLoad
import Ucsb.RocksDbBatchRead
import Ucsb.RocksDbReadSpans
import Ucsb.LevelDb
import Ucsb.Lmdb
import Ucsb.RangeOrder
import Ucsb.LmdbRefines
import Ucsb.WiredTiger
import Ucsb.WiredTigerQueries
import Ucsb.MongoDb
import Ucsb.Redis
import Ucsb.UStore
import Ucsb.UStoreUpdate
import Ucsb.BatchOffsets
import Ucsb.AccessorContract
import Ucsb.ImageRepeats
import Ucsb.BatchReadKeys
import Ucsb.Timer
import Ucsb.MemProfiler
import Ucsb.KeyedList
import Ucsb.Reporter
import Ucsb.ZipfianSampling
import Ucsb.ZipfianShift
import Ucsb.BetaSampling
import Ucsb.OperationChooser
import Ucsb.ChunkedScan
import Ucsb.UStoreScan
import Ucsb.MongoDbQueries
import Ucsb.DisjointCopies
import Ucsb.MongoDbBatchRead
import Ucsb.FencedSystem
import Ucsb.FencedBench
import Ucsb.Session
import Ucsb.SessionCalls
import Ucsb.UStoreClients
import Ucsb.PendingWrites
import Ucsb.RocksDbClients
import Ucsb.LevelDbRefines
import Ucsb.WiredTigerRefines
import Ucsb.MongoDbRefines
import Ucsb.RedisRefines
import Ucsb.UStoreRefines
import Ucsb.Interleaving
import Ucsb.LoadEngines
import Ucsb.ParallelLoad
import Ucsb.LoadThenRun
import Ucsb.TransactionalLoad
import Ucsb.BenchMain
import Ucsb.Runner
import Ucsb.SeparateRuns
import Ucsb.AlignedBuffer
import Ucsb.LmdbQueries
