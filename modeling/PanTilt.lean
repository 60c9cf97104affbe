import PanTilt.Fpga.SpiSlave
import PanTilt.Fpga.Encoder
import PanTilt.Fpga.PwmDirection
import PanTilt.Fpga.EdgeQDecoder
import PanTilt.Fpga.PwmAlternatives
import PanTilt.App.Main
import PanTilt.App.ControlLoop
import PanTilt.App.Overlap
import PanTilt.App.SpscQueue
import PanTilt.App.Publish
import PanTilt.App.Detection
import PanTilt.App.Pipeline
import PanTilt.App.ViewerMemory
import PanTilt.App.BlobMemory
import PanTilt.System.ByteTransfer
import PanTilt.System.ClosedLoop
import PanTilt.System.Shutdown
import PanTilt.System.Angle
import PanTilt.System.Decoders
import PanTilt.System.AluTransfer
import PanTilt.Alu.Commutativity
import PanTilt.Alu.SumValue
import PanTilt.Alu.ProductValue
import PanTilt.Alu.QuotientValue
import PanTilt.Design.Pareto
