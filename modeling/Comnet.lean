import Comnet.Foundations.Transition
import Comnet.Foundations.MachineInt
import Comnet.Foundations.CString
import Comnet.Foundations.Decimal
import Comnet.Foundations.InputStream
import Comnet.Foundations.Lines
import Comnet.Foundations.Text
import Comnet.Foundations.Cursor
import Comnet.Foundations.Channel
import Comnet.Foundations.Slice
import Comnet.Foundations.Cutting
import Comnet.Foundations.Chain
import Comnet.Foundations.Outstanding
import Comnet.Foundations.BitPolynomial
import Comnet.Foundations.BitDivisors
import Comnet.Foundations.OnesComplement
import Comnet.Foundations.Reachability
import Comnet.Foundations.Queue
import Comnet.Foundations.Window
import Comnet.Foundations.Average
import Comnet.MP2.Reassembly
import Comnet.MP2.Confluence
import Comnet.MP2.Labelling
import Comnet.MP2.Congestion
import Comnet.MP2.Window
import Comnet.MP2.Waiting
import Comnet.MP2.Acknowledgement
import Comnet.MP2.Closing
import Comnet.MP2.Integrity
import Comnet.MP2.Chunk
import Comnet.MP2.Rewinding
import Comnet.MP2.Overflow
import Comnet.MP2.GivingUp
import Comnet.MP2.Episode
import Comnet.MP2.Buffering
import Comnet.MP2.Draining
import Comnet.MP2.Datagram
import Comnet.MP2.LossFile
import Comnet.MP2.SpecificLoss
import Comnet.MP3.Checksum
import Comnet.MP3.Detection
import Comnet.MP3.Table
import Comnet.ClientServer.FirstLine
import Comnet.ClientServer.Stream
import Comnet.ClientServer.Header
import Comnet.ClientServer.RoundTrip
import Comnet.ClientServer.Request
import Comnet.MP0.Message
import Comnet.MP2.Positions
import Comnet.MP2.Exchange
import Comnet.MP2.Completion
import Comnet.MP2.PeriodicLoss
import Comnet.MP2.Undisturbed
import Comnet.MP2.Wire
import Comnet.MP2.Containment
import Comnet.MP2.Growth
import Comnet.MP3.ErrorPatterns
import Comnet.MP3.Evaluation
import Comnet.ClientServer.Session
import Comnet.MP3.WordErrors
import Comnet.MP2.Timing
import Comnet.ClientServer.Failing
