import TokenWatch.Bitmark.Handler
import TokenWatch.Bitmark.Row
import TokenWatch.Bitmark.Transaction
import TokenWatch.Bitmark.Watcher
import TokenWatch.BlockTime
import TokenWatch.BlockTime.Resolutions
import TokenWatch.Checkpoint
import TokenWatch.Checkpoint.Advances
import TokenWatch.Config.File
import TokenWatch.Config.Watchers
import TokenWatch.Decimal.Binary64
import TokenWatch.Decimal.Shortest
import TokenWatch.Ethereum.Address
import TokenWatch.Ethereum.Handler
import TokenWatch.Ethereum.Keccak
import TokenWatch.Ethereum.Log
import TokenWatch.Ethereum.Node
import TokenWatch.Ethereum.Watcher
import TokenWatch.Event.Basic
import TokenWatch.Event.Chain
import TokenWatch.Event.TokenId
import TokenWatch.Event.Wire
import TokenWatch.EventProcessor
import TokenWatch.Http.Error
import TokenWatch.Http.Exchange
import TokenWatch.Hub.Connection
import TokenWatch.Hub.Error
import TokenWatch.Hub.Frame
import TokenWatch.Hub.Handshake
import TokenWatch.Hub.Message
import TokenWatch.Hub.Negotiation
import TokenWatch.Json.Node
import TokenWatch.Json.Number
import TokenWatch.Json.Printer
import TokenWatch.Json.Reader
import TokenWatch.Json.Token
import TokenWatch.Json.Value
import TokenWatch.Proofs.Bitmark.Attempts
import TokenWatch.Proofs.Bitmark.Handling
import TokenWatch.Proofs.Bitmark.Listening
import TokenWatch.Proofs.Bitmark.Order
import TokenWatch.Proofs.Bitmark.Row
import TokenWatch.Proofs.Bitmark.Step
import TokenWatch.Proofs.Bitmark.Stopping
import TokenWatch.Proofs.BlockTime.Coherence
import TokenWatch.Proofs.BlockTime.Stamps
import TokenWatch.Proofs.Checkpoint
import TokenWatch.Proofs.Checkpoint.Calls
import TokenWatch.Proofs.Checkpoint.Order
import TokenWatch.Proofs.Config.Loading
import TokenWatch.Proofs.Endpoints
import TokenWatch.Proofs.Ethereum.Carrying
import TokenWatch.Proofs.Ethereum.Handling
import TokenWatch.Proofs.Ethereum.Order
import TokenWatch.Proofs.Ethereum.Pushing
import TokenWatch.Proofs.Ethereum.Requests
import TokenWatch.Proofs.Ethereum.Schedule
import TokenWatch.Proofs.Ethereum.Step
import TokenWatch.Proofs.Ethereum.Stopping
import TokenWatch.Proofs.Event.Numbers
import TokenWatch.Proofs.Event.Reporting
import TokenWatch.Proofs.Event.Wire
import TokenWatch.Proofs.Hub.Addresses
import TokenWatch.Proofs.Hub.Arrival
import TokenWatch.Proofs.Hub.Backlog
import TokenWatch.Proofs.Hub.Chunks
import TokenWatch.Proofs.Hub.Completions
import TokenWatch.Proofs.Hub.Conservation
import TokenWatch.Proofs.Hub.Cuts
import TokenWatch.Proofs.Hub.Delivery
import TokenWatch.Proofs.Hub.Encoding
import TokenWatch.Proofs.Hub.Frames
import TokenWatch.Proofs.Hub.History
import TokenWatch.Proofs.Hub.Numbering
import TokenWatch.Proofs.Hub.Pace
import TokenWatch.Proofs.Hub.Stall
import TokenWatch.Proofs.Hub.Step
import TokenWatch.Proofs.Hub.Verdict
import TokenWatch.Proofs.Json.Depth
import TokenWatch.Proofs.Json.Ordered
import TokenWatch.Proofs.Json.Printed
import TokenWatch.Proofs.Retry
import TokenWatch.Proofs.Run
import TokenWatch.Proofs.Shutdown
import TokenWatch.Proofs.Stopping
import TokenWatch.Proofs.Tezos.Account
import TokenWatch.Proofs.Tezos.Archive
import TokenWatch.Proofs.Tezos.Batches
import TokenWatch.Proofs.Tezos.CatchUp
import TokenWatch.Proofs.Tezos.Completeness
import TokenWatch.Proofs.Tezos.Coverage
import TokenWatch.Proofs.Tezos.Delivery
import TokenWatch.Proofs.Tezos.GapClosure
import TokenWatch.Proofs.Tezos.Mark
import TokenWatch.Proofs.Tezos.Progress
import TokenWatch.Proofs.Tezos.Records
import TokenWatch.Proofs.Tezos.Recovery
import TokenWatch.Proofs.Tezos.Refinement
import TokenWatch.Proofs.Tezos.Settling
import TokenWatch.Proofs.Tezos.Step
import TokenWatch.Proofs.Tezos.Stopping
import TokenWatch.Proofs.Url.Directory
import TokenWatch.Rehearsal.Blocks
import TokenWatch.Rehearsal.Ethereum
import TokenWatch.Rehearsal.Hub
import TokenWatch.Rehearsal.Ledger
import TokenWatch.Rehearsal.Sink
import TokenWatch.Rehearsal.Tezos
import TokenWatch.Retry
import TokenWatch.Shutdown
import TokenWatch.Table
import TokenWatch.Text.LowerCase
import TokenWatch.Text.Numeral
import TokenWatch.Text.Pieces
import TokenWatch.Text.Quoted
import TokenWatch.Text.Utf8
import TokenWatch.Tezos.Batch
import TokenWatch.Tezos.Explorer
import TokenWatch.Tezos.Feed
import TokenWatch.Tezos.Outcome
import TokenWatch.Tezos.Record
import TokenWatch.Tezos.Watcher
import TokenWatch.Time.Date
import TokenWatch.Time.Moment
import TokenWatch.Time.Rfc3339
import TokenWatch.Toml.Parser
import TokenWatch.Toml.Quoted
import TokenWatch.Toml.Reader
import TokenWatch.Toml.Scalar
import TokenWatch.Toml.Value
import TokenWatch.Url.Basic
import TokenWatch.Url.Edit
import TokenWatch.Url.Host
import TokenWatch.Url.Parser
import TokenWatch.Url.Percent
import TokenWatch.Url.Punycode
