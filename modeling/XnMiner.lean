import XnMiner.Text.Decimal
import XnMiner.Text.Json
import XnMiner.Text.JsonRoundTrip
import XnMiner.Text.JsonTorn
import XnMiner.Text.JsonUtf8
import XnMiner.Words.BitString
import XnMiner.Words.Sha2
import XnMiner.Words.LittleEndian
import XnMiner.Words.Blake2
import XnMiner.Words.Quads
import XnMiner.Words.Argon2
import XnMiner.Words.Mixing
import XnMiner.Lists.Chunks
import XnMiner.System.Warp
import XnMiner.System.Machine
import XnMiner.System.Regions
import XnMiner.System.Grid
import XnMiner.System.Choice
import XnMiner.System.WorkerPool
import XnMiner.Vendor.Blake2b
import XnMiner.Vendor.Validation
import XnMiner.Vendor.Argon2Params
import XnMiner.Vendor.WarpBlock
import XnMiner.Vendor.DeviceBlake2b
import XnMiner.Vendor.DeviceKernels
import XnMiner.Vendor.OneshotKernel
import XnMiner.Vendor.OneshotLaunch
import XnMiner.Vendor.Stream
import XnMiner.Vendor.KeyGenerator
import XnMiner.Vendor.KeygenPool
import XnMiner.Vendor.HashBackend
import XnMiner.System.FileLock
import XnMiner.System.RingBuffer
import XnMiner.System.Locks
import XnMiner.System.Action
import XnMiner.Lists.SortedPrefix
import XnMiner.Lists.Search
import XnMiner.Lists.Trim
import XnMiner.Lists.Summary
import XnMiner.Lists.SectionFile
import XnMiner.Common
import XnMiner.Config.Settings
import XnMiner.Util.Sha256
import XnMiner.Util.Sha256Digest
import XnMiner.Queue.Policy
import XnMiner.Queue.Codec
import XnMiner.Queue.Store
import XnMiner.Queue.Outcome
import XnMiner.Queue.Load
import XnMiner.Queue.Index
import XnMiner.Queue.CodecLaws
import XnMiner.Queue.BagJson
import XnMiner.Queue.LogLines
import XnMiner.Queue.BagInvariant
import XnMiner.Queue.BagRuns
import XnMiner.Queue.Restart
import XnMiner.Queue.Crash
import XnMiner.Queue.Durability
import XnMiner.Queue.LoadTolerance
import XnMiner.Queue.FlushBatch
import XnMiner.Queue.EnqueueThrows
import XnMiner.Queue.FreshIds
import XnMiner.Queue.Rotation
import XnMiner.Config.Ini
import XnMiner.Efficiency.ThermalPolicy
import XnMiner.Efficiency.ThermalRuns
import XnMiner.Efficiency.ThermalTiming
import XnMiner.Mining.VramBatch
import XnMiner.Mining.PlanLimits
import XnMiner.Mining.BlockTypes
import XnMiner.Mining.Argon2Encode
import XnMiner.Mining.CudaEngine
import XnMiner.Mining.EngineMoves
import XnMiner.Mining.PreparedHits
import XnMiner.Mining.XuniThrottle
import XnMiner.Mining.Provenance
import XnMiner.Mining.EngineSizing
import XnMiner.Mining.LaneRings
import XnMiner.Mining.RingSafety
import XnMiner.Mining.LaneErrors
import XnMiner.Mining.DrainDelivery
import XnMiner.Mining.LaneLoss
import XnMiner.Network.Submitter
import XnMiner.Network.Difficulty
import XnMiner.Monitoring.Metrics
import XnMiner.App.InstanceLock
import XnMiner.App.Oracle
import XnMiner.Network.Lastblock
import XnMiner.App.MatchDrain
import XnMiner.App.DrainBudget
import XnMiner.App.Authority
import XnMiner.App.RefreshNetwork
import XnMiner.App.PollGenerations
import XnMiner.App.FlushWave
import XnMiner.App.FlushAccounting
import XnMiner.App.FlushRemoval
import XnMiner.App.HeldWave
import XnMiner.App.FlushStops
import XnMiner.App.Handoff
import XnMiner.App.RejectedLive
import XnMiner.App.HandoffMoves
import XnMiner.App.Handover
import XnMiner.App.NoHitLost
import XnMiner.App.Bookkeeping
import XnMiner.App.SessionEnd
import XnMiner.App.LockScopes
import XnMiner.App.SignalSafety
