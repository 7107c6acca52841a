import ShardStore.Address
import ShardStore.Bytes.Blake
import ShardStore.Bytes.Utf8
import ShardStore.Bytes.Word
import ShardStore.Config.Agent
import ShardStore.Config.Budget
import ShardStore.Config.Document
import ShardStore.Config.Flags
import ShardStore.Config.Load
import ShardStore.Config.Yaml
import ShardStore.Console.Calls
import ShardStore.Console.Catalog
import ShardStore.Console.Command
import ShardStore.Console.Form
import ShardStore.Console.GraphSession
import ShardStore.Console.Live
import ShardStore.Console.Local
import ShardStore.Console.Membership
import ShardStore.Console.MeshSession
import ShardStore.Console.Pure
import ShardStore.Console.Respond
import ShardStore.Console.Settings
import ShardStore.Console.Transport
import ShardStore.Console.Units
import ShardStore.Decimal.Layout
import ShardStore.Decimal.Read
import ShardStore.Decimal.Shortest
import ShardStore.Entry
import ShardStore.Fault
import ShardStore.Filter.Basic
import ShardStore.Filter.Catalog
import ShardStore.Filter.Script
import ShardStore.Filter.Split
import ShardStore.Graph.Basic
import ShardStore.Graph.Board
import ShardStore.Graph.Engine
import ShardStore.Graph.Program
import ShardStore.Json.Read
import ShardStore.Json.Value
import ShardStore.Json.Write
import ShardStore.Key
import ShardStore.Keystream
import ShardStore.Main
import ShardStore.Mesh.Agent
import ShardStore.Mesh.Barrier
import ShardStore.Mesh.Client
import ShardStore.Mesh.Delivery
import ShardStore.Mesh.Disk
import ShardStore.Mesh.Inbox
import ShardStore.Mesh.Member
import ShardStore.Mesh.Node
import ShardStore.Mesh.Start
import ShardStore.Mesh.Switchboard
import ShardStore.Mesh.World
import ShardStore.Mutation
import ShardStore.Proofs.Assertion
import ShardStore.Proofs.Barrier.Lockstep
import ShardStore.Proofs.Barrier.Protocol
import ShardStore.Proofs.Graph.Arena
import ShardStore.Proofs.Mesh.Handlers
import ShardStore.Proofs.Mesh.Ownership
import ShardStore.Proofs.Mesh.SingleWriter
import ShardStore.Proofs.Shard.Ownership
import ShardStore.Proofs.Wire.Frames
import ShardStore.Proofs.Wire.Signals
import ShardStore.Ring
import ShardStore.Shard.Alone
import ShardStore.Shard.Basic
import ShardStore.Shard.Process
import ShardStore.Store.Entries
import ShardStore.Store.Files
import ShardStore.Store.Staging
import ShardStore.Store.Waiters
import ShardStore.Text.Blank
import ShardStore.Text.Literal
import ShardStore.Wire.Codec
import ShardStore.Wire.Message
import ShardStore.Wire.Reply
import ShardStore.Proofs.Barrier.Steps
import ShardStore.Proofs.Barrier.Rounds
import ShardStore.Proofs.Barrier.View
import ShardStore.Proofs.Barrier.Refinement
import ShardStore.Proofs.Barrier.Delivery
import ShardStore.Proofs.Barrier.Phases
import ShardStore.Proofs.Barrier.Arrival
import ShardStore.Proofs.Barrier.Tally
import ShardStore.Proofs.TagSet
import ShardStore.Proofs.Utf8
import ShardStore.Proofs.Wire.RoundTrip
import ShardStore.Proofs.Store.Layout
import ShardStore.Proofs.Store.Accounting
import ShardStore.Proofs.Shard.Waiting
import ShardStore.Proofs.Shard.Wakes
import ShardStore.Proofs.Wire.Canonical
import ShardStore.Proofs.Ring
import ShardStore.Proofs.Store.Merging
import ShardStore.Proofs.Shard.Runs
import ShardStore.Proofs.Shard.Staging
import ShardStore.Proofs.Shard.Export
import ShardStore.Proofs.Graph.Rounds
import ShardStore.Proofs.Shard.Rounds
import ShardStore.Proofs.Shard.Splitting
import ShardStore.Proofs.Graph.Walks
import ShardStore.Proofs.Graph.Layout
import ShardStore.Proofs.Graph.Slots
import ShardStore.Proofs.Graph.Distances
import ShardStore.Proofs.Graph.Settling
import ShardStore.Proofs.Shard.Alone
import ShardStore.Proofs.Shard.Closing
import ShardStore.Proofs.Graph.Search
import ShardStore.Proofs.RingSize
import ShardStore.Proofs.Mesh.Gossip
import ShardStore.Proofs.Store.Query
import ShardStore.Proofs.Wire.Prefixes
import ShardStore.Proofs.Store.Text
import ShardStore.Proofs.Graph.Setup
import ShardStore.Proofs.Graph.Stage
import ShardStore.Proofs.Barrier.Frozen
import ShardStore.Proofs.Barrier.Snapshot
