import Redx.Library.Run
import Redx.Library.Peak
import Redx.Library.Chain
import Redx.Library.Region
import Redx.Library.Bitmap
import Redx.Library.Lanes
import Redx.Library.Bytes
import Redx.Library.Halt
import Redx.Library.Varint
import Redx.Library.Memory
import Redx.Library.Machine
import Redx.Library.Order
import Redx.Library.Decimal
import Redx.Library.Scanf
import Redx.Library.Store
import Redx.Library.Files
import Redx.Library.Pieces
import Redx.Allocator.Pool
import Redx.Allocator.Slots
import Redx.Allocator.Chain
import Redx.Allocator.Allocate
import Redx.Allocator.Free
import Redx.Allocator.Live
import Redx.Allocator.RoundTrip
import Redx.Allocator.Throw
import Redx.Allocator.Foreign
import Redx.Allocator.Failure
import Redx.Allocator.Usage
import Redx.Allocator.Tally
import Redx.Allocator.Reuse
import Redx.Monitor.Table
import Redx.Monitor.UUID
import Redx.Monitor.UUIDObjects
import Redx.Monitor.Neighbor
import Redx.Monitor.Map
import Redx.Monitor.State
import Redx.Monitor.Discovery
import Redx.Monitor.Partner
import Redx.Monitor.References
import Redx.Monitor.Cache
import Redx.Monitor.Links
import Redx.Monitor.Slots
import Redx.Monitor.Fresh
import Redx.Monitor.LinkLocal
import Redx.Monitor.Hosts
import Redx.Monitor.Ordinal
import Redx.Monitor.Bounce
import Redx.Xuid.Codec
import Redx.Xuid.Agree
import Redx.Xuid.Validate
import Redx.Keys.Compare
import Redx.Keys.CString
import Redx.Strings.Copy
import Redx.XenStore.Write
import Redx.XenStore.Readdir
import Redx.Hypercall.Vcpus
import Redx.Process.Timeout
import Redx.Interface.Listening
import Redx.Files.Removal
import Redx.Channel.Message
import Redx.Channel.Protocol
import Redx.Channel.Loop
import Redx.Channel.Key
import Redx.Channel.Framing
import Redx.Smbios.Strings
import Redx.Smbios.StringArray
import Redx.Smbios.Structure
import Redx.Smbios.Table
import Redx.Smbios.Lookup
import Redx.Smbios.Image
import Redx.Smbios.Platform
import Redx.NetLink.Datagram
import Redx.NetLink.Receive
import Redx.NetLink.Bounds
import Redx.NetLink.Attributes
import Redx.NetLink.Decode
import Redx.NetLink.Reads
import Redx.NetLink.Request
import Redx.NetLink.RoundTrip
import Redx.NetLink.Response
import Redx.Protobuf.Parse
import Redx.Protobuf.Walk
import Redx.Protobuf.Halt
import Redx.Protobuf.Bounds
import Redx.Protobuf.Varint
import Redx.Protobuf.Grammar
import Redx.Protobuf.Codec
import Redx.Protobuf.Accept
import Redx.ICMPv6.Pdu
import Redx.ICMPv6.Receive
import Redx.Library.Descent
import Redx.Library.Ring
import Redx.Thread.Queue
import Redx.Thread.Fifo
import Redx.Thread.Parallel
import Redx.Json.Scanner
import Redx.Json.Parser
import Redx.Json.Lexical
import Redx.Json.Sound
import Redx.Json.Stops
import Redx.Json.Accept
import Redx.Json.Values
import Redx.Library.Service
import Redx.XenStore.Client
import Redx.XenStore.Descriptors
import Redx.Strings.Append
import Redx.Monitor.Identity
import Redx.Monitor.Advertise
import Redx.Process.Inherit
import Redx.Library.Drain
import Redx.Channel.Capacity
