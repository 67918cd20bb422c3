import FeedBench.Stats.Collector
import FeedBench.Lib.Arrivals
import FeedBench.Stats.Proofs.Steps
import FeedBench.Stats.Proofs.Records
import FeedBench.Stats.Proofs.RecordLaw
import FeedBench.Lib.Interleave
import FeedBench.Stats.Proofs.Confluence
import FeedBench.Lib.Stretch
import FeedBench.Stats.Proofs.Window
import FeedBench.Stats.Proofs.Skew
import FeedBench.Lib.Reports
import FeedBench.Main.Loop
import FeedBench.Main.Proofs.Rolling
import FeedBench.Inflate.Inflater
import FeedBench.Lib.Incremental
import FeedBench.Ws.Frame
import FeedBench.Ws.Proofs.Frame
import FeedBench.Ws.Client
import FeedBench.Ws.Session
import FeedBench.Ws.Proofs.Stamps
import FeedBench.Ws.Assembler
import FeedBench.Ws.Proofs.Chunks
import FeedBench.Ws.Wire
import FeedBench.Ws.Proofs.Reassembly
import FeedBench.Ws.Timed
import FeedBench.Ws.Proofs.Deadline
import FeedBench.Adapter
import FeedBench.L2
import FeedBench.Lib.Resume
import FeedBench.Nitro.Feed
import FeedBench.Nitro.Proofs.Emission
import FeedBench.Nitro.Proofs.Reconnect
import FeedBench.L2.Tree
import FeedBench.L2.Proofs.Decode
import FeedBench.Usize
import FeedBench.L2.Checked
import FeedBench.L2.Proofs.Walk
import FeedBench.Lib.Rlp
import FeedBench.Transaction
import FeedBench.WsRaw.Split
import FeedBench.WsRaw.Proofs.Lengths
import FeedBench.WsRaw.Proofs.Split
import FeedBench.WsRaw.Proofs.Framings
import FeedBench.WsJson.Key
import FeedBench.WsRaw.Keys
import FeedBench.Proofs.OneKey
import FeedBench.Nitro.Proofs.WireBytes
import FeedBench.Lib.Groups
import FeedBench.Stats.Tables
import FeedBench.Stats.Proofs.Tables
import FeedBench.Stats.Proofs.Sizes
import FeedBench.Lib.OrderStat
import FeedBench.Stats.Proofs.Completion
import FeedBench.Lib.Stutter
import FeedBench.Stats.Proofs.Alike
import FeedBench.Eira.Session
import FeedBench.Eira.Proofs.Dedupe
import FeedBench.Text.Pieces
import FeedBench.Ws.Proofs.Url
import FeedBench.Ws.Proofs.Negotiation
import FeedBench.Ws.Proofs.RoundTrip
import FeedBench.Lib.FanOut
import FeedBench.WsJson.Path
import FeedBench.WsJson.Proofs.Path
import FeedBench.Lib.Selection
import FeedBench.WsRaw.Proofs.JsonKeys
import FeedBench.Lib.Json
import FeedBench.WsRaw.Proofs.Language
import FeedBench.Generic
import FeedBench.WsJson.Feed
import FeedBench.WsRaw.Feed
import FeedBench.Eira.Run
import FeedBench.Lib.Mealy
import FeedBench.Proofs.Backoff
import FeedBench.Eira.Proofs.Connected
import FeedBench.Inflate.Proofs.Sessions
import FeedBench.Inflate.Proofs.Limits
import FeedBench.Stats.Proofs.Percentiles
import FeedBench.Lib.Calendar
import FeedBench.Proofs.UtcString
import FeedBench.Spec
import FeedBench.Proofs.Spec
import FeedBench.Ws.Proofs.Legality
import FeedBench.Lib.Renaming
import FeedBench.Stats.Proofs.Symmetry
import FeedBench.Lib.Rounding
import FeedBench.Main.Setup
import FeedBench.Main.Proofs.Setup
import FeedBench.Stats.Proofs.Reorder
import FeedBench.Main.Proofs.Confluence
import FeedBench.Proofs.Deliveries
import FeedBench.System
import FeedBench.Proofs.Adapters
import FeedBench.Stats.Sighting
import FeedBench.Stats.Proofs.Sighting
import FeedBench.Proofs.Measured
import FeedBench.Ws.Proofs.Heard
import FeedBench.Proofs.Heard
import FeedBench.Lib.Columns
import FeedBench.Report.Table
import FeedBench.Report.Proofs.Table
import FeedBench.Report.Number
import FeedBench.Report.Proofs.Number
import FeedBench.Report.Read
import FeedBench.Report.Proofs.Cells
import FeedBench.Report.Proofs.Sections
import FeedBench.Report.Proofs.ReadBack
import FeedBench.Main.Text
import FeedBench.Main.Proofs.Printed
import FeedBench.Ws.Proofs.Request
import FeedBench.Nitro.Proofs.Requested
import FeedBench.Stats.Proofs.PairTable
import FeedBench.Stats.Proofs.Attribution
import FeedBench.Lib.Double
import FeedBench.Stats.Double
