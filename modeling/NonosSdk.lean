import NonosSdk.Framework.Mem
import NonosSdk.Framework.Cyclic
import NonosSdk.Framework.Runs
import NonosSdk.Framework.Crc
import NonosSdk.Impl.RingBuffer
import NonosSdk.Impl.TcpClient
import NonosSdk.Impl.Modbus
import NonosSdk.Impl.Uart
import NonosSdk.Impl.UdpServer
import NonosSdk.Spec.Fifo
import NonosSdk.Spec.Crc16
import NonosSdk.Proof.RingBuffer.Lossless
import NonosSdk.Proof.Modbus.Detection
import NonosSdk.Proof.Modbus.Sharing
import NonosSdk.Proof.Uart.Schedules
import NonosSdk.Proof.UdpServer.Requester
import NonosSdk.Proof.RingBuffer.Exposed
import NonosSdk.Proof.TcpClient.Uplink
import NonosSdk.Proof.TcpClient.Recovery
import NonosSdk.Proof.TcpClient.Session
import NonosSdk.Proof.Uart.Quiesce
import NonosSdk.Proof.AppBin.Load
import NonosSdk.Proof.Key.Awake
import NonosSdk.Proof.UartBuffer.Fifos
import NonosSdk.Proof.I2cMaster.Transaction
import NonosSdk.Proof.Modbus.Incremental
import NonosSdk.Proof.TcpClient.Lookup
import NonosSdk.Proof.Espconn.Delivery
import NonosSdk.Proof.DhcpServer.Allocation
import NonosSdk.Proof.RingBuffer.Exact
import NonosSdk.Proof.RingBuffer.Chunks
import NonosSdk.Proof.UartBuffer.Enqueue
import NonosSdk.Proof.AppBin.Placement
import NonosSdk.Proof.AppBin.Trailer
import NonosSdk.Spec.Crc32
import NonosSdk.Proof.TcpClient.Clock
import NonosSdk.Proof.Key.Press
import NonosSdk.Proof.DhcpServer.Eviction
import NonosSdk.Impl.DhcpOptions
import NonosSdk.Spec.DhcpOptions
import NonosSdk.Proof.DhcpServer.Options
import NonosSdk.Proof.DhcpServer.Grammar
import NonosSdk.Proof.Espconn.Serves
import NonosSdk.Proof.Espconn.Conn
import NonosSdk.Proof.Espconn.Refused
import NonosSdk.Proof.Espconn.Loop
import NonosSdk.Framework.Ring
import NonosSdk.Framework.Stuffing
import NonosSdk.Impl.MqttQueue
import NonosSdk.Proof.MqttQueue.Ring
import NonosSdk.Proof.MqttQueue.Framing
import NonosSdk.Proof.MqttQueue.Messages
import NonosSdk.Impl.MqttMsg
import NonosSdk.Proof.Mqtt.Packet
import NonosSdk.Proof.MqttQueue.Publish
import NonosSdk.Proof.Mqtt.RoundTrip
import NonosSdk.Impl.MqttClient
import NonosSdk.Proof.Mqtt.Receive
import NonosSdk.Proof.Mqtt.Wakeup
import NonosSdk.Impl.EspconnBuf
import NonosSdk.Impl.EspconnRecv
import NonosSdk.Proof.Espconn.ReadBuf
import NonosSdk.Proof.Espconn.Receive
import NonosSdk.Framework.OnesSum
import NonosSdk.Impl.Icmp
import NonosSdk.Proof.InetChksum.Echo
import NonosSdk.Framework.DeltaList
import NonosSdk.Impl.Timers
import NonosSdk.Proof.Timers.List
import NonosSdk.Proof.Timers.NeverNull
import NonosSdk.Framework.Writes
import NonosSdk.Impl.DhcpReply
import NonosSdk.Proof.DhcpServer.Request
import NonosSdk.Proof.DhcpServer.Reply
