import Works.BiniusMayo.Api
import Works.BiniusMayo.Encoding
import Works.BiniusMayo.Gates
import Works.BiniusMayo.Gf16.Mul
import Works.BiniusMayo.Gf16.Mvec
import Works.BiniusMayo.Gf16.Transpose
import Works.BiniusMayo.MapRing
import Works.BiniusMayo.Oracle
import Works.BiniusMayo.Packing
import Works.BiniusMayo.Params
import Works.BiniusMayo.Populate
import Works.BiniusMayo.PublicMap
import Works.BiniusMayo.Quadratic
import Works.BiniusMayo.QuadraticForm
import Works.BiniusMayo.Shake256
import Works.BiniusMayo.Verify
import Works.BiniusMayo.Whipping
import Works.Chainfold.Basic
import Works.Chainfold.Batch
import Works.Chainfold.Canonical
import Works.Chainfold.CaughtUp
import Works.Chainfold.Checkpoint
import Works.Chainfold.Converge
import Works.Chainfold.Delivery
import Works.Chainfold.Deques
import Works.Chainfold.Driver
import Works.Chainfold.DriverRun
import Works.Chainfold.DriverScan
import Works.Chainfold.DriverTick
import Works.Chainfold.Durable
import Works.Chainfold.Engine
import Works.Chainfold.EngineChain
import Works.Chainfold.EngineRun
import Works.Chainfold.EngineSim
import Works.Chainfold.EngineSpec
import Works.Chainfold.FromStart
import Works.Chainfold.Grouping
import Works.Chainfold.Harness
import Works.Chainfold.HarnessRun
import Works.Chainfold.OneChain
import Works.Chainfold.Recovery
import Works.Chainfold.Rejected
import Works.Chainfold.Restart
import Works.Chainfold.Ring
import Works.Chainfold.Rollback
import Works.Chainfold.Scripted
import Works.Chainfold.Snapshot
import Works.Chainfold.SnapshotExact
import Works.Chainfold.SnapshotSpec
import Works.Chainfold.Source
import Works.Chainfold.Storage.CrashSafety
import Works.Chainfold.Storage.CrashVfs
import Works.Chainfold.Storage.Flusher
import Works.Chainfold.Storage.Layout
import Works.Chainfold.Storage.Manifest
import Works.Chainfold.Storage.Reopening
import Works.Chainfold.Storage.Service
import Works.Chainfold.Storage.Store
import Works.Chainfold.Storage.StoreRun
import Works.Chainfold.Storage.StoreSpec
import Works.Chainfold.Storage.Watermark
import Works.Chainfold.TestUtil
import Works.Lib.BatchInverse
import Works.Lib.Blake3
import Works.Lib.BoundedDeque
import Works.Lib.Bytes
import Works.Lib.Chunks
import Works.Lib.Circuit
import Works.Lib.Circular
import Works.Lib.Condvar
import Works.Lib.CrashDir
import Works.Lib.CrashFile
import Works.Lib.CrashRun
import Works.Lib.Crc32
import Works.Lib.FixedArray
import Works.Lib.Gf16
import Works.Lib.Inputs
import Works.Lib.Interpret
import Works.Lib.Keccak
import Works.Lib.LeanTree
import Works.Lib.Loops
import Works.Lib.Outcome
import Works.Lib.PolyQuotient
import Works.Lib.Prog
import Works.Lib.StableSort
import Works.Lib.Words
import Works.Rotortree.Adapters
import Works.Rotortree.Basic
import Works.Rotortree.Calls
import Works.Rotortree.ChunkedLevel
import Works.Rotortree.Consistency
import Works.Rotortree.Hostile
import Works.Rotortree.Inclusion
import Works.Rotortree.InclusionSound
import Works.Rotortree.LevelSpec
import Works.Rotortree.Proof
import Works.Rotortree.Storage.CallLog
import Works.Rotortree.Storage.CheckpointRun
import Works.Rotortree.Storage.CheckpointSpec
import Works.Rotortree.Storage.CrashLog
import Works.Rotortree.Storage.Damage
import Works.Rotortree.Storage.DurableRun
import Works.Rotortree.Storage.DurableState
import Works.Rotortree.Storage.Fallback
import Works.Rotortree.Storage.Frame
import Works.Rotortree.Storage.FreshRun
import Works.Rotortree.Storage.InsertDurable
import Works.Rotortree.Storage.Isolation
import Works.Rotortree.Storage.KeptSnapshot
import Works.Rotortree.Storage.LevelFiles
import Works.Rotortree.Storage.LevelRun
import Works.Rotortree.Storage.Loading
import Works.Rotortree.Storage.LogRun
import Works.Rotortree.Storage.NearRecovery
import Works.Rotortree.Storage.Reading
import Works.Rotortree.Storage.Recovery
import Works.Rotortree.Storage.Remap
import Works.Rotortree.Storage.Replay
import Works.Rotortree.Storage.Resume
import Works.Rotortree.Storage.RotorTree
import Works.Rotortree.Storage.ShardArray
import Works.Rotortree.Storage.ShardSpec
import Works.Rotortree.Storage.Shards
import Works.Rotortree.Storage.TestUtil
import Works.Rotortree.Storage.Threads
import Works.Rotortree.Storage.ThreadsRun
import Works.Rotortree.Storage.TokenRun
import Works.Rotortree.Storage.Verification
import Works.Rotortree.Storage.Wal
import Works.Rotortree.Tree
import Works.Rotortree.TreeSpec
import Works.Rotortree.Update
import Works.Rotortree.UpdateExact
import Works.Rotortree.UpdateForgery
import Works.Rotortree.UpdateShape
import Works.Rotortree.UpdateSound
import Works.Sealring.Adapters
import Works.Sealring.Basic
import Works.Sealring.Scan
import Works.Sealring.Seal
import Works.Sealring.SealSpec
import Works.Sealring.TestUtil
import Works.Wallet.Pool
import Works.Wallet.Sync
