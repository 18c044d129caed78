import CaenDaq.NearestEpoch
import CaenDaq.EventAccounting
import CaenDaq.Containment
import CaenDaq.QueueCalls
import CaenDaq.Timeline
import CaenDaq.StreamRoundTrip
import CaenDaq.Reconnect
import CaenDaq.Restart
import CaenDaq.Delivery
import CaenDaq.OnlineSpectra
import CaenDaq.MissingWords
import CaenDaq.PartFiles
import CaenDaq.MasterFirst
import CaenDaq.TickInFlight
import CaenDaq.StopWakes
import CaenDaq.Conservation
import CaenDaq.HitTap
import CaenDaq.RatesTelescope
import CaenDaq.ClockChain
import CaenDaq.BatchStreams
import CaenDaq.JsonCpp
import CaenDaq.RegisterDump
import CaenDaq.MetricPaths
import CaenDaq.MockRoundTrip
import CaenDaq.EventStride
import CaenDaq.CutStream
import CaenDaq.ReadoutSteps
import CaenDaq.FiledBlocks
import CaenDaq.FileAggregates
import CaenDaq.FileDecode
import CaenDaq.CrashSafety
import CaenDaq.Layered
import CaenDaq.DecodeTap
import CaenDaq.TapSteps
import CaenDaq.TapTransparency
import CaenDaq.TapAccounts
import CaenDaq.OnlineOffline
import CaenDaq.StopOrder
import CaenDaq.Fairness
import CaenDaq.StopReturns
import CaenDaq.MockTimes
import CaenDaq.MockReadout
import CaenDaq.Monitor
import CaenDaq.BoardResources
