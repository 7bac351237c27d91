import Dcl.Foundations.Transition
import Dcl.Foundations.Loop
import Dcl.Strutils.Splitting
import Dcl.Strutils.Format
import Dcl.Strutils.Strtod
import Dcl.Values.Uuid
import Dcl.Values.Any
import Dcl.Values.Datetime
import Dcl.Http.ContentBuffer
import Dcl.Tcp.Ownership
import Dcl.Tcp.Buffers
import Dcl.Tcp.Limit
import Dcl.Http.Framing
import Dcl.Http.Termination
import Dcl.Http.Chunking
import Dcl.Http.Isolation
import Dcl.Http.Delivery
import Dcl.Http.CookieIdentity
import Dcl.Http.HeaderLookup
import Dcl.Http.FormBody
import Dcl.Http.Injection
import Dcl.Web.Fields
import Dcl.Web.BodyLength
import Dcl.Url.FullPath
import Dcl.Url.Normalize
import Dcl.Url.Slashes
import Dcl.Codec.Noise
import Dcl.Pools.Limit
import Dcl.Pools.Ownership
import Dcl.Codec.Digest
import Dcl.Codec.Termination
import Dcl.Codec.SineTable
import Dcl.Odbc.Quoting
import Dcl.Files.Search
import Dcl.Config.Termination
import Dcl.Config.Directory
import Dcl.Sync.WindowsRwlock
import Dcl.Sync.PosixLocks
import Dcl.Tcp.Callbacks
import Dcl.Tcp.Refinement
import Dcl.Net.Sockets
import Dcl.Net.Address
import Dcl.Tcp.Start
import Dcl.Tcp.Shutdown
import Dcl.Odbc.Execution
import Dcl.Odbc.Numbering
import Dcl.Odbc.ResultSets
import Dcl.Process.Argv
import Dcl.Process.Execute
import Dcl.Http.Transfer
import Dcl.Files.Mimetype
import Dcl.Http.Responses
import Dcl.Web.WwwServer
import Dcl.Plugins.Plugin
import Dcl.Values.AnyObjects
import Dcl.Odbc.Handles
import Dcl.Odbc.Rows
import Dcl.Web.Gateway
import Dcl.Tcp.Progress
import Dcl.Tcp.Stopped
