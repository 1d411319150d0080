import AggKit.ClaimSync.CalldataSpec
import AggKit.ClaimSync.ClosedRange
import AggKit.ClaimSync.PagedComplete
import AggKit.BridgeSync.Undo
import AggKit.L2GERSync.Processor
import AggKit.Sync.Download
import AggKit.ReorgDetector.Finalized
import AggKit.ReorgDetector.Start
import AggKit.MultiDownloader.Advance
import AggKit.MultiDownloader.Available
import AggKit.MultiDownloader.NextQuery
import AggKit.MultiDownloader.PartialStep
import AggKit.MultiDownloader.RequestLogs
import AggKit.Agglayer.Binding
import AggKit.Agglayer.JsonRoundTrip
import AggKit.AggSender.BuilderFlowPP
import AggKit.AggSender.ImportedClaims
import AggKit.AggSender.ImportedExits
import AggKit.AggSender.LocalExitRoot
import AggKit.AggSender.Recovery
import AggKit.AggSender.Transport
import AggKit.BridgeService.L1BridgeSpec
import AggKit.BridgeService.ClaimProof
import AggKit.BackwardForwardLET.FailSafe
import AggKit.ExitCertificate.Conservation
import AggKit.AggSender.BlockGaps
import AggKit.BridgeTracker.Registry
import AggKit.ClaimSync.LatestBlock
import AggKit.BackwardForwardLET.Params
import AggKit.Etherman.BlockNotifier
