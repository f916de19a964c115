import KtestCi.VerdictLines
import KtestCi.SupervisorSession
import KtestCi.DesiredJobsOrder
import KtestCi.ResultsStoreRestart
import KtestCi.RmResultsRerun
import KtestCi.Refill
import KtestCi.BatchPool
import KtestCi.BatchStatusFiles
import KtestCi.Reemission
import KtestCi.DaemonVerdicts
import KtestCi.DaemonOnce
import KtestCi.DaemonIdle
import KtestCi.DaemonCrash
import KtestCi.TestGroupChains
import KtestCi.Testrunner
import KtestCi.ScratchDevices
import KtestCi.GcResults
import KtestCi.ResumeLoop
import KtestCi.BatchErrors
import KtestCi.BatchLogs
import KtestCi.ResultDirNames
import KtestCi.CapnpDecoders
import KtestCi.CommitMessages
import KtestCi.CheckDmesg
import KtestCi.JobCommands
import KtestCi.DaemonBatches
import KtestCi.GcCommitNames
import KtestCi.FixedSlices
import KtestCi.BranchResults
import KtestCi.BranchLog
import KtestCi.SupervisorWatchdog
import KtestCi.SupervisorChild
import KtestCi.MonitorRender
import KtestCi.MonitorSocket
import KtestCi.MonitorEcho
import KtestCi.QemuDisks
import KtestCi.RenderBounds
import KtestCi.ListTests
import KtestCi.RequestedTests
import KtestCi.LocalExit
import KtestCi.KernelResolve
import KtestCi.JobPriority
import KtestCi.SubtestsCache
import KtestCi.LcovUpdate
import KtestCi.CommitPrefixes
import KtestCi.ResultsMirror
import KtestCi.ScratchHotplug
import KtestCi.DeviceReplug
