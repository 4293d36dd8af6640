import OpenWebUI.Lib.Dict
import OpenWebUI.Lib.Json
import OpenWebUI.Lib.Transition
import OpenWebUI.Lib.Forest
import OpenWebUI.Lib.Program
import OpenWebUI.Lib.Base64
import OpenWebUI.Chat.History
import OpenWebUI.Chat.Links
import OpenWebUI.Chat.Delete
import OpenWebUI.Chat.HistoryRuns
import OpenWebUI.Chat.Usage
import OpenWebUI.Chat.Rows
import OpenWebUI.Chat.Table
import OpenWebUI.Lib.Text
import OpenWebUI.Chat.Path
import OpenWebUI.Chat.ReadBack
import OpenWebUI.Chat.GapFill
import OpenWebUI.Chat.Save
import OpenWebUI.Chat.UsageRuns
import OpenWebUI.Chat.Update
import OpenWebUI.Chat.Agreement
import OpenWebUI.Chat.Clean
import OpenWebUI.Chat.Merge
import OpenWebUI.Chat.Interleavings
import OpenWebUI.Encryption.Relay
import OpenWebUI.Encryption.RelayInvariant
import OpenWebUI.Encryption.RelaySteps
import OpenWebUI.Encryption.RelayRequests
import OpenWebUI.Encryption.RelayRuns
import OpenWebUI.Crypto.Session
import OpenWebUI.Crypto.Commit
import OpenWebUI.Crypto.SessionRuns
import OpenWebUI.Socket.RedisDict
import OpenWebUI.Socket.RedisDictRuns
import OpenWebUI.Output.Messages
import OpenWebUI.Output.Reconcile
import OpenWebUI.Output.Convert
import OpenWebUI.Anthropic.Response
import OpenWebUI.Anthropic.Stream
import OpenWebUI.Anthropic.Lifecycle
import OpenWebUI.Anthropic.StreamInvariant
import OpenWebUI.Anthropic.StreamRuns
import OpenWebUI.Anthropic.Cut
import OpenWebUI.Anthropic.Reassembly
import OpenWebUI.Anthropic.ToolFragments
import OpenWebUI.Anthropic.StreamAgreement
import OpenWebUI.Lib.Keyed
import OpenWebUI.Approval.Output
import OpenWebUI.Approval.Protocol
import OpenWebUI.Approval.Views
import OpenWebUI.Approval.Transactions
import OpenWebUI.Approval.System
import OpenWebUI.Approval.Safety
import OpenWebUI.Approval.Stall
import OpenWebUI.Lib.Recursive
import OpenWebUI.Groups.Table
import OpenWebUI.Groups.Membership
import OpenWebUI.Groups.Hierarchy
import OpenWebUI.Groups.Permissions
import OpenWebUI.Groups.DefaultModels
import OpenWebUI.Groups.Refresh
import OpenWebUI.Groups.Models
import OpenWebUI.Timers.Runs
import OpenWebUI.Tasks.RegistryRuns
import OpenWebUI.Subagents.Capacity
import OpenWebUI.Mfa.Runs
import OpenWebUI.Delivery.Runs
import OpenWebUI.Folders.Names
import OpenWebUI.Streaming.Lines
import OpenWebUI.Output.LiveContext
import OpenWebUI.Streaming.Ollama
import OpenWebUI.Streaming.DeltaOrder
import OpenWebUI.Chat.KeptTurns
import OpenWebUI.Anthropic.CallArguments
import OpenWebUI.Channels.Thread
import OpenWebUI.Chat.Import
import OpenWebUI.Chat.UsageSums
import OpenWebUI.Chat.Walks
import OpenWebUI.Chat.Repair
import OpenWebUI.Knowledge.Directories
import OpenWebUI.Config.Repair
import OpenWebUI.Calendar.Alerts
import OpenWebUI.Limits.RateLimiter
import OpenWebUI.Groups.HasPermission
import OpenWebUI.Skills.Files
import OpenWebUI.Tools.SplitCalls
import OpenWebUI.Socket.Ydoc
import OpenWebUI.Socket.RoomDelivery
import OpenWebUI.Socket.RoomRest
import OpenWebUI.Socket.RoomProgress
import OpenWebUI.Lib.Worklist
import OpenWebUI.Knowledge.Pipeline
import OpenWebUI.Knowledge.Store
import OpenWebUI.Knowledge.Commands
import OpenWebUI.Knowledge.Exec
import OpenWebUI.Knowledge.Confinement
import OpenWebUI.Knowledge.Filters
import OpenWebUI.Lib.NamedForest
import OpenWebUI.Knowledge.Paths
import OpenWebUI.Knowledge.Scope
import OpenWebUI.Knowledge.Placement
import OpenWebUI.Knowledge.Routes
import OpenWebUI.Knowledge.Sync
import OpenWebUI.Knowledge.SyncDiff
import OpenWebUI.Knowledge.SyncCleanup
import OpenWebUI.Knowledge.SyncMirror
import OpenWebUI.Knowledge.SyncFrame
import OpenWebUI.Tools.ClientSchema
