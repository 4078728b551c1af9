import Mpubsub.Lib.Machine
import Mpubsub.Lib.Medium
import Mpubsub.Lib.Cascade
import Mpubsub.Lib.Sha2
import Mpubsub.Lib.Ring
import Mpubsub.Lib.DedupLog
import Mpubsub.Lib.ExactlyOnce
import Mpubsub.Lib.Bytes
import Mpubsub.Lib.Crc
import Mpubsub.Lib.CrcDivision
import Mpubsub.Lib.Rounding
import Mpubsub.Lib.Slice
import Mpubsub.Lib.Deferred
import Mpubsub.Lib.Protobuf
import Mpubsub.Lib.Ieee754
import Mpubsub.Lib.Memory
import Mpubsub.Lib.View
import Mpubsub.Lib.Base64
import Mpubsub.Lib.Bounds
import Mpubsub.Lib.Except
import Mpubsub.Lib.LittleEndian
import Mpubsub.Lib.Rfc8439
import Mpubsub.Lib.Utf8
import Mpubsub.Lib.Lines
import Mpubsub.Lib.Lists
import Mpubsub.Lib.Dict
import Mpubsub.Lib.Timers
import Mpubsub.Lib.EventLoop
import Mpubsub.Replay.Spec
import Mpubsub.Replay.Cpp
import Mpubsub.Replay.Python
import Mpubsub.Replay.Go
import Mpubsub.Replay.GoMemory
import Mpubsub.Wire.Poly1305
import Mpubsub.Wire.ChaCha20Poly1305
import Mpubsub.Wire.Aead
import Mpubsub.Wire.Sha256
import Mpubsub.Wire.Digest
import Mpubsub.Wire.Topic
import Mpubsub.Wire.Format
import Mpubsub.Wire.InMemory
import Mpubsub.Proto.Emitter
import Mpubsub.Proto.Encoding
import Mpubsub.Proto.Decoding
import Mpubsub.Node.State
import Mpubsub.Node.Publish
import Mpubsub.Node.Receive
import Mpubsub.Node.InMemory
import Mpubsub.Node.Run
import Mpubsub.Node.Delivery
import Mpubsub.Node.PublishTyped
import Mpubsub.Node.Retransmit
import Mpubsub.Node.Dynamic
import Mpubsub.Node.Fabric
import Mpubsub.Node.Builds
import Mpubsub.Node.Simulation
import Mpubsub.Node.Passes
import Mpubsub.Node.Transmissions
import Mpubsub.Reference.Aead
import Mpubsub.Reference.Wire
import Mpubsub.Bridge.Wire
import Mpubsub.Bridge.Duration
import Mpubsub.Bridge.Encode
import Mpubsub.Bridge.Receive
import Mpubsub.Bridge.Resend
import Mpubsub.Bridge.Schema
import Mpubsub.Bridge.Config
import Mpubsub.Bridge.Json
import Mpubsub.Bridge.Proto
import Mpubsub.Bridge.Ranges
import Mpubsub.Bridge.Records
import Mpubsub.Bridge.Columns
import Mpubsub.Bridge.Body
import Mpubsub.Bridge.Slices
import Mpubsub.Bridge.Network
import Mpubsub.Client.State
import Mpubsub.Client.Config
import Mpubsub.Client.Publish
import Mpubsub.Client.Subscribe
import Mpubsub.Client.Run
import Mpubsub.Client.Retransmit
import Mpubsub.Client.Bookkeeping
import Mpubsub.HomeAssistant.Library
import Mpubsub.HomeAssistant.Sensor
import Mpubsub.HomeAssistant.Options
import Mpubsub.Component.Setup
import Mpubsub.Component.PublishAction
import Mpubsub.Component.Names
import Mpubsub.Theorems.CodeGeneration
import Mpubsub.Theorems.LiteralPayloads
import Mpubsub.Theorems.NameClashes
import Mpubsub.Theorems.Varints
import Mpubsub.Theorems.WindowLength
import Mpubsub.Theorems.SensorExpiry
import Mpubsub.Theorems.ReplayAgreement
import Mpubsub.Theorems.ReplayWindow
import Mpubsub.Theorems.EncodeRange
import Mpubsub.Theorems.EndToEnd
import Mpubsub.Theorems.RequireEncryption
import Mpubsub.Theorems.TopicIsolation
import Mpubsub.Theorems.Forwardable
import Mpubsub.Theorems.Forwarding
import Mpubsub.Theorems.Oversize
import Mpubsub.Theorems.TypedPublish
import Mpubsub.Theorems.AeadAgreement
import Mpubsub.Theorems.ReceiverAgreement
import Mpubsub.Theorems.SenderAgreement
import Mpubsub.Theorems.JsonRelay
import Mpubsub.Theorems.MemorySafety
import Mpubsub.Theorems.NoTrace
import Mpubsub.Theorems.StaleResends
import Mpubsub.Theorems.StreamReplacement
import Mpubsub.Theorems.IndefiniteDelay
import Mpubsub.Theorems.Routing
import Mpubsub.Theorems.ClientAgreement
import Mpubsub.Theorems.Counters
import Mpubsub.Theorems.ChainIndependence
import Mpubsub.Theorems.Supersession
import Mpubsub.Theorems.ClientRetransmits
import Mpubsub.Theorems.Subscriptions
import Mpubsub.Theorems.Dispatch
import Mpubsub.Theorems.HostileDatagrams
import Mpubsub.Theorems.SchemaFingerprint
import Mpubsub.Theorems.SchemaOrder
import Mpubsub.Theorems.GoRoundTrip
import Mpubsub.Theorems.TypedInterop
import Mpubsub.Theorems.DynamicRoundTrip
import Mpubsub.Theorems.DynamicPublish
import Mpubsub.Theorems.BodyMerge
import Mpubsub.Theorems.FieldNumbers
import Mpubsub.Theorems.DecodeSafety
import Mpubsub.Theorems.TopicAddressing
import Mpubsub.Theorems.AuthenticDelivery
import Mpubsub.Theorems.SingleDelivery
import Mpubsub.Theorems.BridgeRelay
import Mpubsub.Theorems.BuildAgreement
import Mpubsub.Theorems.LoopPasses
import Mpubsub.Theorems.Transmissions
import Mpubsub.Theorems.EchoLoops
import Mpubsub.Theorems.SensorValues
import Mpubsub.Theorems.HomeDelivery
import Mpubsub.Lib.Decimal
import Mpubsub.Lib.Nearest
import Mpubsub.Lib.NumberText
import Mpubsub.Node.Sensor
import Mpubsub.Theorems.MirroredSensors
