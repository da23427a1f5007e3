import WorkCode.UdpPacketEncoding
import WorkCode.EchoRequestBuilders
import WorkCode.Locales
import WorkCode.IpSettingOtherLines
import WorkCode.IpSettingFaults
import WorkCode.FrameForwarder
import WorkCode.FileUpload
import WorkCode.CaptureSavefile
import WorkCode.ChecksumCopies
import WorkCode.CapturedBounds
import WorkCode.NetmaskConversion
import WorkCode.TreeDescent
import WorkCode.XmlLookup
import WorkCode.XmlLookupChains
import WorkCode.EventRuns
import WorkCode.TransientNumbers
import WorkCode.EchoReplies
import WorkCode.PingAttribution
import WorkCode.EchoRequestFields
import WorkCode.EchoReplyOverlay
import WorkCode.CallbackClient
import WorkCode.DumpStrings
import WorkCode.LossReport
import WorkCode.PingRounds
import WorkCode.RoundRobin
import WorkCode.ChannelHopping
import WorkCode.ThreadSignals
import WorkCode.ChecksumErrors
import WorkCode.DecimalInput
import WorkCode.DeviceSelection
import WorkCode.PointerRing
import WorkCode.ListRotation
import WorkCode.OwnedLists
import WorkCode.ListTraversals
import WorkCode.SlotChains
import WorkCode.HashLists
import WorkCode.XdrCodec
import WorkCode.FileTransfers
import WorkCode.ListStore
import WorkCode.RemoteCalls
import WorkCode.CallCounting
import WorkCode.Tallies
import WorkCode.BlockChannels
import WorkCode.SecureTransport
import WorkCode.Transporters
import WorkCode.LockedCounter
import WorkCode.ServiceStarts
import WorkCode.ForwardedFrames
import WorkCode.RecordConnections
