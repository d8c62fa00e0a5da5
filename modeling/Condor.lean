import Condor.Ccb.FileRuns
import Condor.Ccb.ServerRuns
import Condor.ClassAdAnalysis.BoolTable
import Condor.ClassAdAnalysis.ConditionOrder
import Condor.ClassAdAnalysis.Distance
import Condor.ClassAdLog.Consistency
import Condor.ClassAdLog.Mirror
import Condor.ClassAdLog.Overlay
import Condor.ClassAds.FullParse
import Condor.ClassAds.Identity
import Condor.ClassAds.ParserHistory
import Condor.ClassAds.Preservation
import Condor.ClassAds.Recursion
import Condor.ClassAds.ScopeFaults
import Condor.ClassAds.StoredStrings
import Condor.ClassAds.Traps
import Condor.Config.LogicalLines
import Condor.Config.RandomInteger
import Condor.DaemonCore.TimerAccounting
import Condor.Dagman.Cycle
import Condor.Dagman.Dependencies
import Condor.Dagman.HeldProcs
import Condor.Dagman.Priorities
import Condor.Dagman.ReadyQueue
import Condor.Dagman.Throttles
import Condor.Had.Election
import Condor.Had.Reconfigure
import Condor.Io.Datagrams
import Condor.Io.KeyedMessages
import Condor.Io.Packets
import Condor.Io.Reassembly
import Condor.Io.Strings
import Condor.Negotiator.ConcurrencyLimits
import Condor.Negotiator.FairShare
import Condor.Negotiator.MatchListCache
import Condor.Negotiator.UsageCharges
import Condor.Procd.CpuTime
import Condor.Procd.SnapshotInterval
import Condor.Schedd.AutoClusterIds
import Condor.Schedd.ClusterSizes
import Condor.Schedd.JobIds
import Condor.Schedd.Negotiate
import Condor.Schedd.PrioRec
import Condor.Schedd.Rounding
import Condor.Schedd.Survival
import Condor.Schedd.TransferQueue
import Condor.Security.MapFile
import Condor.Security.SessionIndex
import Condor.Startd.Accounting
import Condor.Startd.ResAttributes
import Condor.Startd.SlotRuns
import Condor.UserLog.CheckEvents
import Condor.UserLog.Polling
import Condor.UserLog.Resynchronize
import Condor.Utils.ArgListWin32
import Condor.Utils.DateUtil
import Condor.Utils.EnvChannel
import Condor.Utils.HashTableIteration
import Condor.Utils.NetPatterns
import Condor.Utils.Queue
import Condor.Utils.SinfulRoundTrip
import Condor.Utils.StatsRuns
import Condor.Utils.WildcardLists
