import Qmux.Boundaries
import Qmux.Clock.KeepAlive
import Qmux.Closing
import Qmux.ControlLoop
import Qmux.ControlQueue
import Qmux.Datagrams
import Qmux.Datagrams.Delivery
import Qmux.Delivery
import Qmux.FlowControl
import Qmux.Handshake
import Qmux.IdleTimeout
import Qmux.KeepAlive
import Qmux.Peeking
import Qmux.Quiet.Settling
import Qmux.ReadBuffer
import Qmux.Reading
import Qmux.Reasons.System
import Qmux.RecordSizes
import Qmux.Sender
import Qmux.Session
import Qmux.Streams
import Qmux.Transport.System
import Qmux.Wakeups
import Qmux.WriteLock.Control
