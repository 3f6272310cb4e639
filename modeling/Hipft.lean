import Hipft.Foundation.Memory
import Hipft.Foundation.Stuffing
import Hipft.Foundation.Padding
import Hipft.Foundation.ByteLayout
import Hipft.Foundation.BitString
import Hipft.Foundation.ParityCheck
import Hipft.Foundation.Delimited
import Hipft.Foundation.Intervals
import Hipft.Foundation.Transitions
import Hipft.Foundation.Slots
import Hipft.Cobs.Codec
import Hipft.Cobs.Blocks
import Hipft.Cobs.RoundTrip
import Hipft.Cobs.Verifiers
import Hipft.Cobs.Lengths
import Hipft.Cobs.PartialDecode
import Hipft.Message.ByteOrder
import Hipft.Message.Parity
import Hipft.Message.ParityLaws
import Hipft.Message.Columns
import Hipft.Message.Format
import Hipft.Message.Layout
import Hipft.Message.Parse
import Hipft.Message.Grammar
import Hipft.Message.Verify
import Hipft.Message.RoundTrip
import Hipft.Message.Detection
import Hipft.Message.SingleBit
import Hipft.Client.Errors
import Hipft.Client.ReadBlocks
import Hipft.Client.ReceiveBuffer
import Hipft.Client.Frames
import Hipft.Client.DecodeBuffer
import Hipft.Server.FileTransfer
import Hipft.Server.SocketHelp
import Hipft.Server.TransferLog
import Hipft.Client.Transfer
import Hipft.Client.Validation
import Hipft.Section.Pieces
import Hipft.Section.Canonical
import Hipft.Section.Requests
import Hipft.Server.FileHandle
import Hipft.Server.ChannelThread
import Hipft.Server.FirstPass
import Hipft.Server.Retransmission
import Hipft.Server.ConnChan
import Hipft.Server.Capacity
import Hipft.Server.MainLoop
import Hipft.Server.ChannelTable
import Hipft.Server.Establishment
import Hipft.Client.Gather
import Hipft.Client.Rebuild
import Hipft.Client.PacketCount
import Hipft.Message.Rows
import Hipft.Client.HeadTrail
import Hipft.Client.Diagnosis
import Hipft.Server.Segments
import Hipft.Server.SegmentSize
import Hipft.Section.Arrays
import Hipft.Section.SetLaws
import Hipft.Section.Machine
import Hipft.Server.TableRefinement
import Hipft.Server.PartialTransfers
import Hipft.Foundation.Interleavings
import Hipft.Parallel.DownloadPart
import Hipft.Foundation.CriticalSection
import Hipft.Server.SendLock
import Hipft.Server.HandleLock
import Hipft.Client.Delivery
import Hipft.Client.Accounting
import Hipft.Client.Download
import Hipft.Server.Directory
import Hipft.Server.TableRuns
import Hipft.Server.Channels
import Hipft.Server.Rounds
import Hipft.Server.Survival
import Hipft.Server.Converge
import Hipft.Server.ThreadArrays
import Hipft.Server.ThreadSends
import Hipft.Server.Wire
import Hipft.Server.Shutdown
import Hipft.Server.RelayRace
import Hipft.Server.Unasked
import Hipft.Server.Dialogue
import Hipft.Client.Main
import Hipft.Client.Session
