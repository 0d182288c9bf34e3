import Uplink.Fault
import Uplink.Allocation
import Uplink.Bits
import Uplink.Double
import Uplink.Modulation
import Uplink.Single
import Uplink.Complex
import Uplink.SoftBit
import Uplink.GoldSequence
import Uplink.Numerology
import Uplink.Dmrs
import Uplink.SymbolMask
import Uplink.Region
import Uplink.Crc
import Uplink.Ldpc.BaseGraph
import Uplink.Segmentation
import Uplink.Budget
import Uplink.ChannelEstimate
import Uplink.ResourceGrid
import Uplink.ChannelEstimate.LeastSquares
import Uplink.ChannelState
import Uplink.Codeblock
import Uplink.CircularBuffer
import Uplink.Constellation
import Uplink.Equalizer
import Uplink.Scrambling
import Uplink.Demodulation
import Uplink.Harq.Buffer
import Uplink.Text.Hexadecimal
import Uplink.Harq.Pool
import Uplink.Ldpc.LiftedGraph
import Uplink.Ldpc.Codeword
import Uplink.Ldpc.MinSum
import Uplink.Simulation.Randomness
import Uplink.Simulation.Draws
import Uplink.Simulation.Channel
import Uplink.Simulation.Settings
import Uplink.Placement
import Uplink.Multiplex
import Uplink.Uci.ShortBlock
import Uplink.Pdu
import Uplink.TransportBlock.IterationStatistics
import Uplink.TransportBlock.Reception
import Uplink.Uci.Field
import Uplink.Report
import Uplink.Receiver
import Uplink.Reuse.Buffer
import Uplink.Reuse.Estimation
import Uplink.Reuse.Demodulation
import Uplink.Reuse.Receiver
import Uplink.Mapping
import Uplink.TransportBlock.Codeword
import Uplink.Transmitter
import Uplink.Simulation.Statistics
import Uplink.Simulation.Device
import Uplink.Toml.Value
import Uplink.Toml.Document
import Uplink.Toml.Scanner
import Uplink.Toml.Blank
import Uplink.Toml.Quoted
import Uplink.Toml.Number
import Uplink.Toml.Parser
import Uplink.Simulation.SettingsText
import Uplink.Simulation.Run
import Uplink.Text.Significant
import Uplink.Text.Fixed
import Uplink.Simulation.Summary
import Uplink.Main
import Uplink.Proofs.Single.Side
import Uplink.Proofs.SoftBit
import Uplink.Proofs.Checked
import Uplink.Proofs.Alike
import Uplink.Proofs.Bits
import Uplink.Proofs.Bits.Coefficient
import Uplink.Proofs.Crc.Register
import Uplink.Proofs.Crc.Division
import Uplink.Proofs.Crc.Table
import Uplink.Proofs.Crc
import Uplink.Proofs.Crc.Detection
import Uplink.Proofs.Ldpc.Graph
import Uplink.Proofs.Ldpc.CheckNode
import Uplink.Proofs.Ldpc.Codeword
import Uplink.Proofs.Ldpc.Code
import Uplink.Proofs.Ldpc.CheckVisit
import Uplink.Proofs.Ldpc.Sweep
import Uplink.Proofs.Ldpc.Decoding
import Uplink.Proofs.Ldpc.Acceptance
import Uplink.Proofs.Segmentation
import Uplink.Proofs.Codeblock
import Uplink.Proofs.Messages
import Uplink.Proofs.Selection
import Uplink.Proofs.RateMatching
import Uplink.Proofs.Readable
import Uplink.Proofs.Segmentation.Exact
import Uplink.Proofs.Selection.Rounds
import Uplink.Proofs.RateMatching.Adjoint
import Uplink.Proofs.RateMatching.Refusal
import Uplink.Proofs.Harq.Buffer
import Uplink.Proofs.TransportBlock.Assembly
import Uplink.Proofs.TransportBlock.Session
import Uplink.Proofs.TransportBlock.SideBySide
import Uplink.Proofs.TransportBlock.Completion
import Uplink.Proofs.TransportBlock.Sent
import Uplink.Proofs.Codeblock.Spans
import Uplink.Proofs.TransportBlock.Reassembly
import Uplink.Proofs.TransportBlock.RoundTrip
import Uplink.Proofs.Harq.History
import Uplink.Proofs.Harq.NewData
import Uplink.Proofs.Harq.Combining
import Uplink.Proofs.Harq.Verified
import Uplink.Proofs.Harq.Provenance
import Uplink.Proofs.Numerology
import Uplink.Proofs.Harq.Expiry
import Uplink.Proofs.Harq.Reservations
import Uplink.Proofs.Harq.OneProcess
import Uplink.Proofs.Harq.Erased
import Uplink.Proofs.Double.Rounding
import Uplink.Proofs.Double.Value
import Uplink.Proofs.Double.Conversion
import Uplink.Proofs.Region
import Uplink.Proofs.Budget.Shares
import Uplink.Proofs.Budget.Sound
import Uplink.Proofs.Placement.Row
import Uplink.Proofs.Placement.Allot
import Uplink.Proofs.Placement.Fields
import Uplink.Proofs.Placement.Exact
import Uplink.Proofs.Placement.Agreement
import Uplink.Proofs.Single.Quantization
import Uplink.Proofs.Single.Order
import Uplink.Proofs.Ldpc.Extrinsic
import Uplink.Proofs.Single.Whole
import Uplink.Proofs.Allocation
import Uplink.Proofs.Demodulation.SoftBits
import Uplink.Proofs.Demodulation.Elements
import Uplink.Proofs.Demodulation.Run
import Uplink.Proofs.Multiplexing
import Uplink.Proofs.Demultiplexing
import Uplink.Proofs.Receiver.Acceptance
import Uplink.Proofs.GoldSequence
import Uplink.Proofs.GoldSequence.Recurrence
import Uplink.Proofs.Scrambling
import Uplink.Proofs.Dmrs
import Uplink.Proofs.ResourceGrid
import Uplink.Proofs.ResourceGrid.Store
import Uplink.Proofs.ResourceGrid.Ranges
import Uplink.Proofs.Receiver.Estimation
import Uplink.Proofs.Receiver.Stages
import Uplink.Proofs.Receiver.Fields
import Uplink.Proofs.Receiver.Reception
import Uplink.Proofs.Reuse.Buffer
import Uplink.Proofs.Reuse.Estimation
import Uplink.Proofs.Reuse.Estimation.Frame
import Uplink.Proofs.Reuse.Demodulation
import Uplink.Proofs.Reuse.Receiver
import Uplink.Proofs.Reuse.Codeblocks
import Uplink.Proofs.Simulation.Exchange
import Uplink.Proofs.Simulation.Accounting
import Uplink.Proofs.Simulation.Source
import Uplink.Proofs.Simulation.Operation
import Uplink.Proofs.Simulation.Running
import Uplink.Proofs.Mapping.Places
import Uplink.Proofs.Allocation.Distinct
import Uplink.Proofs.Mapping.Rows
import Uplink.Proofs.Mapping.Writing
import Uplink.Proofs.Mapping.Agreement
import Uplink.Proofs.Mapping.Completion
import Uplink.Proofs.Uci.Number
import Uplink.Proofs.Uci.Codeword
import Uplink.Proofs.Uci.Totals
import Uplink.Proofs.Uci.Detection
import Uplink.Proofs.Uci.RoundTrip
import Uplink.Proofs.Transmitter
import Uplink.Proofs.Demodulation.Silence
import Uplink.Proofs.Demodulation.Nulled
import Uplink.Proofs.Demodulation.Delivery
import Uplink.Proofs.Receiver.DcSubcarrier
