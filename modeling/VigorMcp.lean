import VigorMcp.Lib.OrderedMap
import VigorMcp.Lib.Interaction
import VigorMcp.Js.Text
import VigorMcp.Js.Value
import VigorMcp.Tools.ApproveCrypto
import VigorMcp.Tools.Redaction
import VigorMcp.Tools.RedactionRoundTrip
import VigorMcp.Ssh.SdkVigorClient
import VigorMcp.Ssh.WriteAuthorization
import VigorMcp.Ssh.Blocklist
import VigorMcp.Ssh.Sessions
import VigorMcp.Tools.ConfirmGate
import VigorMcp.Tools.PendingFile
import VigorMcp.Tools.ApproveCli
import VigorMcp.Tools.BlindSigner
import VigorMcp.Tools.GateRuns
import VigorMcp.Tools.PendingMirror
import VigorMcp.Tools.PendingCrash
import VigorMcp.Tools.IntentAccounts
import VigorMcp.Commands.RouterCliResult
import VigorMcp.Commands.CommandDef
import VigorMcp.Commands.ToolPolicy
import VigorMcp.Commands.ToolReplies
import VigorMcp.Commands.Registry
import VigorMcp.Commands.WriteExecutor
import VigorMcp.Commands.Footprint
import VigorMcp.Commands.WriteLedger
import VigorMcp.Commands.WriteAudit
import VigorMcp.Commands.WriteFrame
import VigorMcp.Commands.WriteCancellation
import VigorMcp.Commands.WriteSecrets
import VigorMcp.Lib.History
import VigorMcp.Commands.ReadTool
import VigorMcp.Commands.LoggedCommands
import VigorMcp.Server.Runs
import VigorMcp.Server.ApprovalSafety
import VigorMcp.Server.DualTier
import VigorMcp.Commands.GeneratedIds
import VigorMcp.Lib.Forall2
import VigorMcp.Js.Same
import VigorMcp.Sdk.Zod
import VigorMcp.Sdk.SchemaToZod
import VigorMcp.Sdk.Meaning
import VigorMcp.Sdk.Discriminators
import VigorMcp.Sdk.FullSchema
import VigorMcp.Sdk.Uniform
import VigorMcp.Sdk.FlatShape
import VigorMcp.Sdk.OperationIndex
import VigorMcp.Sdk.SecretFields
import VigorMcp.Commands.TypedInput
import VigorMcp.Commands.SchemaErrors
import VigorMcp.Js.JsonText
import VigorMcp.Commands.SchemaSecrets
import VigorMcp.Commands.SdkBindings
import VigorMcp.Js.PrettyJson
import VigorMcp.Js.JsonParse
import VigorMcp.Js.JsonRoundTrip
import VigorMcp.Lib.Words
import VigorMcp.Lib.Binary64
import VigorMcp.Lib.BitMask
import VigorMcp.Lib.Base64
import VigorMcp.Js.Buffer
import VigorMcp.Js.Number
import VigorMcp.Commands.Ipv4Mask
import VigorMcp.Commands.FlagTokens
import VigorMcp.Commands.InjectionGuards
import VigorMcp.Ssh.SshClientTransport
import VigorMcp.Commands.RejectedReply
import VigorMcp.Commands.RouterWorld
import VigorMcp.Commands.TimingColumns
import VigorMcp.Commands.AllowlistLoad
import VigorMcp.Commands.ArgValues
import VigorMcp.Commands.ReadAllowlist
import VigorMcp.Lib.Fallible
import VigorMcp.Lib.Promises
import VigorMcp.Tools.RunExclusive
import VigorMcp.Server.WriteTurns
import VigorMcp.Server.Moves
import VigorMcp.Server.SensitiveReads
import VigorMcp.Lib.Descent
import VigorMcp.Lib.Tables
import VigorMcp.Db.LogStore
import VigorMcp.Db.Migrations
import VigorMcp.Server.Liveness
import VigorMcp.Server.AuditLinks
import VigorMcp.Js.PosixPath
import VigorMcp.Tools.ApproveKeys
import VigorMcp.Server.BlindApproval
import VigorMcp.Server.Config
import VigorMcp.Commands.Build
import VigorMcp.Server.Started
import VigorMcp.Tools.HonestApprover
import VigorMcp.Server.Awaiting
import VigorMcp.Server.HonestApproval
import VigorMcp.Server.Setup
import VigorMcp.Server.Facade
import VigorMcp.Server.RouterSafety
import VigorMcp.Server.AuditTruth
