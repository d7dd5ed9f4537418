import Xrpld.SHAMap.FailedDelete
import Xrpld.SHAMap.RootSnapshot
import Xrpld.SHAMap.SnapshotIsolation
import Xrpld.SHAMap.ContinuationSafety
import Xrpld.Consensus.ValidationsWaiters
import Xrpld.Basics.NumberClosed
import Xrpld.Basics.NumberConversion
import Xrpld.SHAMap.CodecRoundTrip
import Xrpld.SHAMap.OrderedAccess
import Xrpld.SHAMap.CompareExact
import Xrpld.SHAMap.PartlyLoaded
import Xrpld.SHAMap.FlushExact
import Xrpld.Ledger.MulRatio
import Xrpld.Protocol.AmountScaling
import Xrpld.Protocol.QualityDirection
import Xrpld.Ledger.Views.TypedLookups
import Xrpld.TxQ.FeeMetrics
import Xrpld.Acquisition.Ingress
import Xrpld.Consensus.ValidationsExpiry
import Xrpld.Consensus.DisputedTx
import Xrpld.NodeStore.Varint
import Xrpld.TxQ.FullQueue
import Xrpld.Basics.TaggedCache
