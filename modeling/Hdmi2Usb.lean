import Hdmi2Usb.Runs
import Hdmi2Usb.HdmiInRotation
import Hdmi2Usb.EtherboneReceive
import Hdmi2Usb.EtherboneProcess
import Hdmi2Usb.EtherboneReplies
import Hdmi2Usb.Streamer
import Hdmi2Usb.StreamerPayload
import Hdmi2Usb.EndianSwap
import Hdmi2Usb.EndianSwapRun
import Hdmi2Usb.Processor
import Hdmi2Usb.Tokenizer
import Hdmi2Usb.Console
import Hdmi2Usb.ModeIndexes
import Hdmi2Usb.TimingCoherence
import Hdmi2Usb.CustomMode
import Hdmi2Usb.Modeline
import Hdmi2Usb.VideoMatrix
import Hdmi2Usb.Edid
import Hdmi2Usb.EdidBlock
import Hdmi2Usb.LiteEthMac
import Hdmi2Usb.PcieDriver
import Hdmi2Usb.PcieSlots
import Hdmi2Usb.I2cBus
import Hdmi2Usb.I2cMaster
import Hdmi2Usb.EncoderFrames
import Hdmi2Usb.Fx2Serving
import Hdmi2Usb.EncoderRate
import Hdmi2Usb.DotClock
import Hdmi2Usb.OutputEnables
import Hdmi2Usb.Pattern
import Hdmi2Usb.EncoderBlocks
import Hdmi2Usb.EncoderBuffer
import Hdmi2Usb.SpiFlashRead
import Hdmi2Usb.I2cReads
import Hdmi2Usb.StdioWrap
import Hdmi2Usb.Telnet
import Hdmi2Usb.LineEditor
import Hdmi2Usb.PatternBars
import Hdmi2Usb.LiteEthMacPoll
import Hdmi2Usb.ClockArch
import Hdmi2Usb.FrequencyMeasurement
import Hdmi2Usb.Spram
import Hdmi2Usb.JfifGen
import Hdmi2Usb.HdmiInLock
import Hdmi2Usb.TokenBuffer
import Hdmi2Usb.Texts
import Hdmi2Usb.PrefixCodes
import Hdmi2Usb.RunLengths
import Hdmi2Usb.Stuffing
import Hdmi2Usb.JpegScan
import Hdmi2Usb.Rle
import Hdmi2Usb.RleBlocks
import Hdmi2Usb.JpegFifo
import Hdmi2Usb.HuffmanRoms
import Hdmi2Usb.Huffman
import Hdmi2Usb.HuffmanBits
import Hdmi2Usb.HuffmanBlocks
import Hdmi2Usb.ByteStuffer
import Hdmi2Usb.JpegFile
import Hdmi2Usb.JpegHeader
import Hdmi2Usb.CtrlSm
import Hdmi2Usb.CtrlSmProgress
import Hdmi2Usb.JpegImage
import Hdmi2Usb.JpegPipeline
import Hdmi2Usb.JfifHeader
import Hdmi2Usb.Quantizer
