import QemuHdlSim.Infra.Loop
import QemuHdlSim.Infra.Bytes
import QemuHdlSim.Infra.Path
import QemuHdlSim.Infra.Fifo
import QemuHdlSim.Infra.Fair
import QemuHdlSim.Infra.Axi
import QemuHdlSim.Infra.Lists
import QemuHdlSim.Infra.Stream
import QemuHdlSim.Infra.Sockets
import QemuHdlSim.Infra.Fields
import QemuHdlSim.Infra.Text
import QemuHdlSim.Infra.Except
import QemuHdlSim.Bridge.Acc
import QemuHdlSim.Bridge.Dpi
import QemuHdlSim.Bridge.Log2c
import QemuHdlSim.Bridge.Setup
import QemuHdlSim.Bridge.Pack
import QemuHdlSim.Bridge.SlaveWrite
import QemuHdlSim.Bridge.SlaveRead
import QemuHdlSim.Bridge.MasterWrite
import QemuHdlSim.Bridge.MasterRead
import QemuHdlSim.Bridge.Ip
import QemuHdlSim.Device.Pcie
import QemuHdlSim.Device.Mmio
import QemuHdlSim.Device.Msix
import QemuHdlSim.Device.Lifecycle
import QemuHdlSim.System.MmioLoop
import QemuHdlSim.System.MmioPhases
import QemuHdlSim.System.Cosim
import QemuHdlSim.System.Fair
import QemuHdlSim.System.DmaRead
import QemuHdlSim.System.MmioSystem
import QemuHdlSim.System.Boot
import QemuHdlSim.Nic.AxisM
import QemuHdlSim.Nic.Bridge
import QemuHdlSim.Nic.AxisS
import QemuHdlSim.Nic.Transmit
import QemuHdlSim.Nic.Link
import QemuHdlSim.Uart.Dpi
import QemuHdlSim.Uart.SlaveRead
import QemuHdlSim.Uart.SlaveWrite
import QemuHdlSim.Uart.Uart
import QemuHdlSim.Device.Serial
import QemuHdlSim.Uart.Transmit
import QemuHdlSim.HwTable.Config
import QemuHdlSim.HwTable.Python
import QemuHdlSim.HwTable.Decode
import QemuHdlSim.HwTable.Lines
import QemuHdlSim.HwTable.Encode
import QemuHdlSim.Properties.DmaWrite
import QemuHdlSim.Properties.DmaRead
import QemuHdlSim.Properties.SlaveReadProtocol
import QemuHdlSim.Properties.MasterWriteProtocol
import QemuHdlSim.Properties.MmioPairing
import QemuHdlSim.Properties.MmioMemory
import QemuHdlSim.Properties.RequestLoss
import QemuHdlSim.Properties.IssueOrder
import QemuHdlSim.Properties.CompletionOrder
import QemuHdlSim.Properties.NicStream
import QemuHdlSim.Properties.NicLastBeat
import QemuHdlSim.Properties.NicTransmit
import QemuHdlSim.Properties.NicBounds
import QemuHdlSim.Properties.NicAnswers
import QemuHdlSim.Properties.NicLive
import QemuHdlSim.Properties.Interrupts
import QemuHdlSim.Properties.MasterReadProtocol
import QemuHdlSim.Properties.SlaveWriteProtocol
import QemuHdlSim.Properties.DmaBounds
import QemuHdlSim.Properties.CircularWait
import QemuHdlSim.Properties.BurstGeometry
import QemuHdlSim.Properties.DmaPairing
import QemuHdlSim.Properties.DmaLog
import QemuHdlSim.Properties.DmaMemory
import QemuHdlSim.Properties.MmioSystem
import QemuHdlSim.Properties.MmioLive
import QemuHdlSim.Properties.DmaLive
import QemuHdlSim.Properties.PowerOn
import QemuHdlSim.Properties.PollOrder
import QemuHdlSim.Properties.BarIsolation
import QemuHdlSim.Properties.PowerOnLive
import QemuHdlSim.Properties.MsixVectors
import QemuHdlSim.Properties.Lifecycle
import QemuHdlSim.Properties.UartRead
import QemuHdlSim.Properties.UartStatus
import QemuHdlSim.Properties.UartTransmit
import QemuHdlSim.Properties.UartLive
import QemuHdlSim.Properties.UartReceive
import QemuHdlSim.Properties.UartReceiveLive
import QemuHdlSim.Properties.HwTable
import QemuHdlSim.Properties.CoeVector
