import RyFi.Lib.Loop
import RyFi.Lib.ShiftRegister
import RyFi.Lib.ShiftTrellis
import RyFi.Lib.Relaxation
import RyFi.Lib.BinaryField
import RyFi.Lib.KeyEquation
import RyFi.Lib.KnownPoints
import RyFi.Lib.Multirate
import RyFi.Lib.OwnedHeap
import RyFi.Lib.Chain
import RyFi.Lib.Lossy
import RyFi.Lib.BlockMachine
import RyFi.Conv.Bit
import RyFi.Conv.BitList
import RyFi.Conv.Lookup
import RyFi.Conv.HistoryBuffer
import RyFi.Conv.Convolutional
import RyFi.Conv.Neon
import RyFi.Conv.Instance
import RyFi.Conv.Ring
import RyFi.Conv.UnboundedHistory
import RyFi.Conv.Counts
import RyFi.Conv.Tables
import RyFi.Conv.InnerStep
import RyFi.Conv.Viterbi
import RyFi.Conv.Metrics
import RyFi.Conv.Refinement
import RyFi.Conv.DecodeRun
import RyFi.Conv.UsedInstance
import RyFi.Conv.Slices
import RyFi.Conv.NoWrap
import RyFi.Conv.PathMetric
import RyFi.Conv.Encoding
import RyFi.Conv.CodeStream
import RyFi.Conv.RoundTrip
import RyFi.Conv.LightWords
import RyFi.Conv.FourErrors
import RyFi.Conv.HardDecode
import RyFi.Rs.Field
import RyFi.Rs.Gf
import RyFi.Rs.Polynomial
import RyFi.Rs.Evaluation
import RyFi.Rs.ReedSolomon
import RyFi.Rs.Instance
import RyFi.Rs.BerlekampMassey
import RyFi.Rs.ShortestRecurrence
import RyFi.Rs.Decode
import RyFi.Rs.Corrections
import RyFi.Rs.Codewords
import RyFi.Rs.FewErrors
import RyFi.Rs.Memoryless
import RyFi.Rs.Accesses
import RyFi.Rs.TableSafety
import RyFi.Rs.Erasures
import RyFi.Rs.Shortened
import RyFi.Rs.ErasureLocator
import RyFi.Rs.ErasureDecode
import RyFi.Dsp.Stream
import RyFi.Dsp.Handoff
import RyFi.Dsp.Block
import RyFi.Dsp.BlockRun
import RyFi.Dsp.Pipeline
import RyFi.Dsp.Completion
import RyFi.Dsp.Feeding
import RyFi.Dsp.Runs
import RyFi.Dsp.Resampler
import RyFi.Dsp.Interpolator
import RyFi.Dsp.Fir
import RyFi.Modem.Frame
import RyFi.Modem.PacketMemory
import RyFi.Modem.Transmitter
import RyFi.Modem.Receiver
import RyFi.Modem.ReceiverSafety
import RyFi.Modem.FrameLayout
import RyFi.Modem.Extraction
import RyFi.Modem.Delivery
import RyFi.Modem.Framing
import RyFi.Modem.Alignment
import RyFi.Modem.Startup
import RyFi.Modem.RsCodec
import RyFi.Modem.RsFrames
import RyFi.Modem.RsRepair
import RyFi.Modem.SentFrames
import RyFi.Modem.ConvCodec
import RyFi.Modem.BlockSizes
import RyFi.Modem.IdealChannel
import RyFi.Modem.Memoryless
import RyFi.Modem.Stages
import RyFi.Modem.DeframerRun
import RyFi.Modem.Threads
import RyFi.Modem.Waveform
import RyFi.Modem.EndToEnd
import RyFi.Device.Transmitter
import RyFi.Device.Staging
import RyFi.Device.Restart
import RyFi.Device.Driver
import RyFi.Device.Bookkeeping
import RyFi.Cli.Parse
import RyFi.Cli.Typed
import RyFi.Cli.Lines
