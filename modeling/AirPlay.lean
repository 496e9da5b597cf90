import AirPlay.Library.Machine
import AirPlay.Library.Serial
import AirPlay.Library.Timeline
import AirPlay.Library.RingBuffer
import AirPlay.Library.Bytes
import AirPlay.Library.Registry
import AirPlay.Library.Keystream
import AirPlay.Library.Ledger
import AirPlay.Library.Descriptors
import AirPlay.Library.Text
import AirPlay.Library.Fields
import AirPlay.Library.Head
import AirPlay.Library.Plist
import AirPlay.Library.Percent
import AirPlay.Library.Chunked
import AirPlay.Library.Scan
import AirPlay.Library.Attributes
import AirPlay.Library.Split
import AirPlay.Library.Utf8
import AirPlay.Library.Bits
import AirPlay.Library.Debounce
import AirPlay.Audio.Pcm
import AirPlay.Audio.Receiver
import AirPlay.Audio.Steps
import AirPlay.Audio.Session
import AirPlay.Audio.Accounting
import AirPlay.Audio.Boundary
import AirPlay.Audio.Splice
import AirPlay.Audio.Handover
import AirPlay.Audio.Once
import AirPlay.Audio.Playout
import AirPlay.Audio.Dedup
import AirPlay.Audio.RtpFlush
import AirPlay.Audio.Packets
import AirPlay.Streams.Session
import AirPlay.Streams.Sockets
import AirPlay.Streams.Synchronized
import AirPlay.Streams.Setup
import AirPlay.Clock.NtpClock
import AirPlay.Clock.Accuracy
import AirPlay.Clock.Stamps
import AirPlay.Clock.NtpClient
import AirPlay.Rtsp.Message
import AirPlay.Rtsp.Reader
import AirPlay.Rtsp.Length
import AirPlay.Rtsp.Framing
import AirPlay.Rtsp.Replies
import AirPlay.Rtsp.Serialize
import AirPlay.Rtsp.Routes
import AirPlay.Control.Server
import AirPlay.Control.Reverse
import AirPlay.Control.Device
import AirPlay.Control.Exclusive
import AirPlay.Control.Dacp
import AirPlay.Control.Commands
import AirPlay.Control.SingleInstance
import AirPlay.Hls.Playlist
import AirPlay.Hls.Session
import AirPlay.Hls.Lookup
import AirPlay.Hls.Segments
import AirPlay.Hls.Generation
import AirPlay.Hls.Stopped
import AirPlay.Hls.Waiters
import AirPlay.Hls.Refresh
import AirPlay.Hls.Localise
import AirPlay.Hls.LocalServer
import AirPlay.Hls.Master
import AirPlay.Hls.Rendition
import AirPlay.Hls.Condensed
import AirPlay.Hls.Expansion
import AirPlay.Hls.Models
import AirPlay.Hls.Proxy
import AirPlay.Hls.Fcup
import AirPlay.Mirror.Listener
import AirPlay.Mirror.Keystream
import AirPlay.Video.Slot
import AirPlay.Video.Decoder
import AirPlay.Mirror.Nal
import AirPlay.Mirror.Sps
import AirPlay.Mirror.Syntax
import AirPlay.Mirror.Emulation
import AirPlay.Mirror.Geometry
import AirPlay.Mirror.Pipeline
import AirPlay.Mirror.Serving
import AirPlay.Video.Config
import AirPlay.Video.SampleEntry
import AirPlay.Video.Fonts
import AirPlay.Pairing.PairVerify
import AirPlay.Parameters.Daap
import AirPlay.Parameters.Dmap
import AirPlay.Parameters.SetParameter
import AirPlay.Settings.ReceiverName
import AirPlay.Settings.Persistent
import AirPlay.Settings.RoundTrip
import AirPlay.Settings.Keeper
import AirPlay.Pairing.FairPlay
import AirPlay.Recorder.VideoRecorder
import AirPlay.Recorder.Conservation
import AirPlay.Recorder.Layout
import AirPlay.Recorder.Hearing
import AirPlay.Recorder.Alignment
import AirPlay.Recorder.Limits
import AirPlay.Net.TcpServer
import AirPlay.Net.Drain
import AirPlay.Net.Listener
import AirPlay.Net.Advertising
