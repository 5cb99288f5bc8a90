import VidhiArena.Backend.DailyCap
import VidhiArena.Backend.Dispatch
import VidhiArena.Backend.ElfValidator
import VidhiArena.Backend.FallbackAgreement
import VidhiArena.Backend.FinalEval
import VidhiArena.Backend.HashLocks
import VidhiArena.Backend.JobLists
import VidhiArena.Backend.KeyRevocation
import VidhiArena.Backend.LeaderboardRefresh
import VidhiArena.Backend.QueueOrder
import VidhiArena.Backend.RunHistory
import VidhiArena.Backend.RunListing
import VidhiArena.Botfleet.Pacing
import VidhiArena.Browser.Accounting
import VidhiArena.Browser.BestPrices
import VidhiArena.Browser.Completion
import VidhiArena.Browser.ContestantRunner
import VidhiArena.Browser.FloodControl
import VidhiArena.Browser.NoiseCap
import VidhiArena.Browser.PositionLimit
import VidhiArena.Browser.SameEngine
import VidhiArena.Browser.TranslatedPrograms
import VidhiArena.Browser.TranspiledBlocks
import VidhiArena.Dataset.Agreement
import VidhiArena.Forge.AcceptedFields
import VidhiArena.Forge.BannedCalls
import VidhiArena.Forge.LimitPrices
import VidhiArena.Forge.NativeCalls
import VidhiArena.Forge.PersistentState
import VidhiArena.GameMaster.Accountants
import VidhiArena.GameMaster.AuditVerdicts
import VidhiArena.GameMaster.BotConfig
import VidhiArena.GameMaster.Capacity
import VidhiArena.GameMaster.Conservation
import VidhiArena.GameMaster.CrossedBook
import VidhiArena.GameMaster.ExactMap
import VidhiArena.GameMaster.FillNotice
import VidhiArena.GameMaster.InventorySkew
import VidhiArena.GameMaster.Isolation
import VidhiArena.GameMaster.LatencyPercentiles
import VidhiArena.GameMaster.LatencyReport
import VidhiArena.GameMaster.MidPrice
import VidhiArena.GameMaster.MomentumInventory
import VidhiArena.GameMaster.PeriodicAudit
import VidhiArena.GameMaster.PositionLimits
import VidhiArena.GameMaster.PositiveVolumes
import VidhiArena.GameMaster.Publication
import VidhiArena.GameMaster.RingProgress
import VidhiArena.GameMaster.Settlement
import VidhiArena.GameMaster.ShadowMirror
import VidhiArena.GameMaster.ShadowVolumes
import VidhiArena.GameMaster.Sweep
import VidhiArena.GameMaster.TickLoop
import VidhiArena.GameMaster.WellFormed
import VidhiArena.Sandbox.Handshake
import VidhiArena.Sandbox.SeccompFilter
import VidhiArena.SandboxManager.NoOrphans
import VidhiArena.Worker.FinalStatus
import VidhiArena.Worker.OutputReaders
import VidhiArena.Backend.ForgePipeline
import VidhiArena.Botfleet.FleetReport
import VidhiArena.Forge.NativeStrategy
import VidhiArena.Forge.PriceLadder
import VidhiArena.Forge.SameFills
import VidhiArena.Forge.StrategyRuns
import VidhiArena.Worker.CorePool
