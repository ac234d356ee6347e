import RaspiOrbSlam.Foundation.Parser
import RaspiOrbSlam.Foundation.BitFields
import RaspiOrbSlam.Foundation.TransitionSystem
import RaspiOrbSlam.Foundation.Fallible
import RaspiOrbSlam.Foundation.EventRun
import RaspiOrbSlam.Foundation.Checksum
import RaspiOrbSlam.Foundation.BinaryFormat
import RaspiOrbSlam.Protocol.VectorStream
import RaspiOrbSlam.Protocol.StreamSimulation
import RaspiOrbSlam.Protocol.Platform
import RaspiOrbSlam.Protocol.Varint
import RaspiOrbSlam.Protocol.VarintRoundTrip
import RaspiOrbSlam.Protocol.Vec3
import RaspiOrbSlam.Protocol.Vec3Lanes
import RaspiOrbSlam.Protocol.Vec3RoundTrip
import RaspiOrbSlam.Protocol.Vec3Components
import RaspiOrbSlam.Protocol.Vec3Reencoding
import RaspiOrbSlam.Protocol.Vec3Magnitude
import RaspiOrbSlam.Protocol.Vec3Rounding
import RaspiOrbSlam.Protocol.Serializer
import RaspiOrbSlam.Protocol.AbsolutePosition
import RaspiOrbSlam.Protocol.WireFormat
import RaspiOrbSlam.Protocol.Packets
import RaspiOrbSlam.Protocol.PacketFormat
import RaspiOrbSlam.Protocol.Truncation
import RaspiOrbSlam.Protocol.Destination
import RaspiOrbSlam.Protocol.Filling
import RaspiOrbSlam.Protocol.VarintOverflow
import RaspiOrbSlam.Protocol.VarintEncoding
import RaspiOrbSlam.Protocol.LengthCheck
import RaspiOrbSlam.Protocol.Codec
import RaspiOrbSlam.Protocol.ValueSequence
import RaspiOrbSlam.Protocol.NestedObjects
import RaspiOrbSlam.Protocol.PacketRoundTrip
import RaspiOrbSlam.Protocol.ObjectRoundTrip
import RaspiOrbSlam.Tank.Serial
import RaspiOrbSlam.Tank.Port
import RaspiOrbSlam.Server.ClientHandler
import RaspiOrbSlam.Server.PacketHandlers
import RaspiOrbSlam.Server.Broadcast
import RaspiOrbSlam.Server.BroadcastSafety
import RaspiOrbSlam.Server.KeyframePath
import RaspiOrbSlam.Server.CpuUsage
import RaspiOrbSlam.Server.CpuUtilization
import RaspiOrbSlam.Camera.Buffers
import RaspiOrbSlam.Camera.Tokens
import RaspiOrbSlam.Camera.Exclusion
import RaspiOrbSlam.Camera.Pairing
import RaspiOrbSlam.Camera.Shutdown
import RaspiOrbSlam.Camera.Order
import RaspiOrbSlam.ControlPage.Page
import RaspiOrbSlam.ControlPage.Commands
import RaspiOrbSlam.ControlPage.MoveMessages
import RaspiOrbSlam.Foundation.BitString
import RaspiOrbSlam.Foundation.CanonicalCode
import RaspiOrbSlam.Foundation.Binary32
import RaspiOrbSlam.Foundation.LinearProgram
import RaspiOrbSlam.Foundation.Lanes
import RaspiOrbSlam.Foundation.CosineTable
import RaspiOrbSlam.Foundation.OrthogonalTransform
import RaspiOrbSlam.Foundation.Ascii
import RaspiOrbSlam.TooJpeg.BitWriter
import RaspiOrbSlam.TooJpeg.Huffman
import RaspiOrbSlam.TooJpeg.Codewords
import RaspiOrbSlam.TooJpeg.EntropyCoder
import RaspiOrbSlam.TooJpeg.BlockDecoder
import RaspiOrbSlam.TooJpeg.Transform
import RaspiOrbSlam.TooJpeg.Precision
import RaspiOrbSlam.TooJpeg.BlockRoundTrip
import RaspiOrbSlam.TooJpeg.CosineTransform
import RaspiOrbSlam.TooJpeg.Sampling
import RaspiOrbSlam.TooJpeg.SamplePrecision
import RaspiOrbSlam.TooJpeg.WriteJpeg
import RaspiOrbSlam.TooJpeg.ScanDecoder
import RaspiOrbSlam.TooJpeg.ScanRoundTrip
import RaspiOrbSlam.TooJpeg.FileDecoder
import RaspiOrbSlam.TooJpeg.FileHeader
import RaspiOrbSlam.TooJpeg.FileRoundTrip
import RaspiOrbSlam.TooJpeg.FileAccuracy
import RaspiOrbSlam.Server.CameraStream
import RaspiOrbSlam.Tank.Receiver
import RaspiOrbSlam.Server.ControlLink
import RaspiOrbSlam.Server.Delivery
import RaspiOrbSlam.Server.Report
import RaspiOrbSlam.TooJpeg.SymbolStream
import RaspiOrbSlam.Server.MemUtilization
import RaspiOrbSlam.Server.Percentage
import RaspiOrbSlam.Server.PushStream
