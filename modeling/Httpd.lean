import Httpd.App.Routes
import Httpd.App.Site
import Httpd.App.StaticFiles
import Httpd.App.Streams
import Httpd.Http.HeaderMap
import Httpd.Library.Relaxed
import Httpd.Obs.Prometheus
import Httpd.Parser.Body
import Httpd.Parser.Memory
import Httpd.Parser.Target
import Httpd.Server.Allow
import Httpd.Server.Backpressure
import Httpd.Server.Conservation
import Httpd.Server.Counters
import Httpd.Server.Drain
import Httpd.Server.Framing
import Httpd.Server.InputBuffer
import Httpd.Server.InputCap
import Httpd.Server.Interim
import Httpd.Server.Sequential
import Httpd.Server.Shrinking
import Httpd.Server.Shutdown
import Httpd.Server.Termination
import Httpd.Server.Timer
import Httpd.Tools.ClosedLoop
import Httpd.Util.ByteBuffer
