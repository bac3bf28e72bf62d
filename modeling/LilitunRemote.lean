import LilitunRemote.Foundation.Transition
import LilitunRemote.Foundation.Process
import LilitunRemote.Foundation.Memory
import LilitunRemote.Foundation.Mirror
import LilitunRemote.Foundation.Ownership
import LilitunRemote.Foundation.Script
import LilitunRemote.Foundation.ChangeScan
import LilitunRemote.Foundation.Words
import LilitunRemote.Foundation.Records
import LilitunRemote.Foundation.Layers
import LilitunRemote.Foundation.LockOrder
import LilitunRemote.Foundation.Terminated
import LilitunRemote.Foundation.Unicode
import LilitunRemote.Foundation.Coalesce
import LilitunRemote.Foundation.CString
import LilitunRemote.Foundation.Lz4
import LilitunRemote.Foundation.Json
import LilitunRemote.Foundation.Base64
import LilitunRemote.Foundation.Pool
import LilitunRemote.Foundation.QuotedText
import LilitunRemote.Foundation.LineReader
import LilitunRemote.Foundation.JsonDecode
import LilitunRemote.Foundation.CaseFold
import LilitunRemote.Foundation.Chain
import LilitunRemote.Foundation.Switches
import LilitunRemote.Protocol.Wire
import LilitunRemote.Protocol.StringRead
import LilitunRemote.Protocol.WordRead
import LilitunRemote.Protocol.Url
import LilitunRemote.Protocol.Jsmn
import LilitunRemote.Protocol.JsonFields
import LilitunRemote.Protocol.Base64Encode
import LilitunRemote.Screen.Blit
import LilitunRemote.Screen.Encoding
import LilitunRemote.Screen.ScreenDiff
import LilitunRemote.Screen.RegionBounds
import LilitunRemote.Screen.Capture
import LilitunRemote.Screen.CaptureBounds
import LilitunRemote.Screen.CaptureFrames
import LilitunRemote.Server.InputEvents
import LilitunRemote.Server.Regions
import LilitunRemote.Server.Drawing
import LilitunRemote.Server.Connection
import LilitunRemote.Server.LockDiscipline
import LilitunRemote.Server.Interleaving
import LilitunRemote.Session.ScreenSync
import LilitunRemote.Session.Reconnect
import LilitunRemote.Projector.Thread
import LilitunRemote.Projector.Gate
import LilitunRemote.Projector.Clients
import LilitunRemote.Projector.Dialogue
import LilitunRemote.Projector.Grabber
import LilitunRemote.Projector.WinGrabber
import LilitunRemote.Projector.ShareButton
import LilitunRemote.Projector.Line
import LilitunRemote.Projector.ScreenUpdate
import LilitunRemote.Projector.Signature
import LilitunRemote.Projector.Authorization
import LilitunRemote.Session.InputDelivery
import LilitunRemote.Session.DesktopInput
import LilitunRemote.Transport.WebSocket
import LilitunRemote.Transport.TlsRead
import LilitunRemote.Projector.UserPassword
import LilitunRemote.Projector.AcceptLoop
import LilitunRemote.AppServer.UserId
import LilitunRemote.AppServer.Store
import LilitunRemote.AppServer.SqlText
import LilitunRemote.Server.Portctrl
import LilitunRemote.Server.Lifecycle
import LilitunRemote.Server.Ports
import LilitunRemote.Server.StopSharing
import LilitunRemote.Server.Registration
import LilitunRemote.Server.Translator
import LilitunRemote.Server.VncMirror
import LilitunRemote.Server.Threads
import LilitunRemote.Server.MutexUse
import LilitunRemote.Server.Deadlock
import LilitunRemote.Server.ControlRequest
import LilitunRemote.Server.Control
import LilitunRemote.Server.PortContract
import LilitunRemote.Server.Terminators
import LilitunRemote.Server.RequestTarget
import LilitunRemote.Server.ConfigFile
import LilitunRemote.Server.Notification
import LilitunRemote.Server.StopMessage
import LilitunRemote.Server.ItemList
import LilitunRemote.Transport.Handshake
import LilitunRemote.Projector.WebPages
import LilitunRemote.Session.SetupExchange
import LilitunRemote.Browser.Client
import LilitunRemote.Browser.Canvas
import LilitunRemote.Browser.Lz4Decoder
import LilitunRemote.Session.BrowserAnswers
import LilitunRemote.Session.BrowserSession
import LilitunRemote.Session.BrowserRuns
import LilitunRemote.Session.ChangeDetection
import LilitunRemote.Session.Password
import LilitunRemote.Session.PointerCoalescing
import LilitunRemote.Launch.Base64Decode
import LilitunRemote.Launch.Link
import LilitunRemote.AppServer.SessionsPage
import LilitunRemote.Browser.InputDevices
import LilitunRemote.Session.BrowserInput
