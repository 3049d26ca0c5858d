import Zvault.Relational.Table
import Zvault.Feed.Page
import Zvault.Db.Schema
import Zvault.Access.Levels
import Zvault.Access.Facts
import Zvault.Access.Register
import Zvault.Access.Reconcile
import Zvault.Access.Environments
import Zvault.Access.Orgs
import Zvault.Access.Requests
import Zvault.Access.Upkeep
import Zvault.Access.Rotation
import Zvault.Access.RotationExact
import Zvault.Access.RotationFlag
import Zvault.Projects.Store
import Zvault.Projects.Service
import Zvault.Projects.Reads
import Zvault.Projects.Visibility
import Zvault.Projects.Writes
import Zvault.Projects.Recorded
import Zvault.Projects.ChangeFeed
import Zvault.Projects.Requests
import Zvault.Projects.KeyEpoch
import Zvault.Projects.EpochRuns
import Zvault.Auth.Codes
import Zvault.Auth.GuessLimit
import Zvault.Bytes.Radix
import Zvault.Bytes.Regroup
import Zvault.Srp.Server
import Zvault.Srp.Agreement
import Zvault.Concurrent.Tasks
import Zvault.TwoFactor.Service
import Zvault.TwoFactor.History
import Zvault.TwoFactor.Limits
import Zvault.TwoFactor.Accepted
import Zvault.Pairing.Service
import Zvault.Pairing.Safety
import Zvault.Pairing.Runs
import Zvault.Sharing.Links
import Zvault.Sharing.Steps
import Zvault.Sharing.Limits
import Zvault.Auth.Login
import Zvault.Auth.StaleLogins
import Zvault.Concurrent.Budget
import Zvault.Auth.Proofs
import Zvault.AddPhone.Sheet
import Zvault.AddPhone.CodeShown
import Zvault.Desktop.Session
import Zvault.Desktop.Commands
import Zvault.Desktop.LockState
import Zvault.Desktop.PartsAgree
import Zvault.Desktop.SavedSession
import Zvault.Desktop.StaysLocked
import Zvault.Desktop.Deadline
import Zvault.Agents.Policy
import Zvault.Agents.Approvals
import Zvault.Agents.Server
import Zvault.Agents.ApprovalsEnd
import Zvault.Past.Since
import Zvault.Agents.PolicyTraces
import Zvault.Agents.Settings
import Zvault.Agents.SettingsObeyed
import Zvault.Text.Trim
import Zvault.Vault.Items
import Zvault.Vault.Sync
import Zvault.Vault.EditRuns
import Zvault.Bytes.Labels
import Zvault.Crypto.Uuid
import Zvault.Crypto.Contexts
import Zvault.Json.Value
import Zvault.ProjectSync.Metas
import Zvault.Sharing.Payload
import Zvault.Sharing.Openable
import Zvault.Crypto.Sealing
import Zvault.Keyrings.Records
import Zvault.Keyrings.Desktop
import Zvault.Keyrings.Sealed
import Zvault.Keyrings.Mobile
import Zvault.Keyrings.SameContents
import Zvault.Keyrings.PhoneOpens
import Zvault.Keyrings.Rotations
import Zvault.Keyrings.RotationsKept
import Zvault.Mobile.AppState
import Zvault.Mobile.NewestShown
import Zvault.Text.Slugs
import Zvault.Text.Reading
import Zvault.Walks.Follow
import Zvault.Walks.Acyclic
import Zvault.Text.Regex
import Zvault.Text.Separated
import Zvault.Text.AsciiCase
import Zvault.Fallible.Steps
import Zvault.ProjectSync.View
import Zvault.ProjectSync.Fallback
import Zvault.ProjectSync.SecretPath
import Zvault.ProjectSync.Environments
import Zvault.ProjectSync.Inheritance
import Zvault.Projects.References
import Zvault.Projects.FirstKeys
import Zvault.Cli.Snapshot
import Zvault.Cli.TokenReads
import Zvault.Cli.Load
import Zvault.Tokens.Bearer
import Zvault.Tokens.Issued
import Zvault.Tokens.KeyVersions
import Zvault.Tokens.NeverStale
import Zvault.Access.KeyHolders
import Zvault.Access.Ownership
import Zvault.Access.Approvals
import Zvault.Access.Decisions
import Zvault.Access.Lifecycle
import Zvault.Agents.Masker
import Zvault.Agents.MaskedOutput
import Zvault.Agents.MaskedChunks
import Zvault.Agents.Reference
import Zvault.Agents.SameGrammar
import Zvault.Agents.Scopes
import Zvault.Devices.Sessions
import Zvault.Devices.SameSessions
import Zvault.Devices.SessionRuns
import Zvault.Devices.SameResults
import Zvault.SecretSync.Github
import Zvault.SecretSync.Written
import Zvault.SecretSync.Tracked
import Zvault.SecretSync.Engine
import Zvault.SecretSync.Unsynced
import Zvault.Otp.Base32
import Zvault.Otp.Percent
import Zvault.Otp.Totp
import Zvault.Otp.Reparsed
import Zvault.Otp.Saved
import Zvault.Text.Shell
import Zvault.Cli.EnvOutput
import Zvault.ProjectSync.Activity
import Zvault.Desktop.Clipboard
import Zvault.Access.LevelRule
import Zvault.Agents.Visible
import Zvault.Text.IpAddr
import Zvault.Browser.Sites
import Zvault.Browser.Offered
import Zvault.ProjectSync.Release
import Zvault.Bytes.Base64
import Zvault.Vault.SshKeys
import Zvault.Vault.Passkeys
import Zvault.Vault.KeysKept
import Zvault.Keyrings.Edits
import Zvault.Crypto.Padding
import Zvault.Text.Chunks
import Zvault.Crypto.TypedKeys
import Zvault.Js.Numbers
import Zvault.ProjectSync.FreshSlugs
import Zvault.Text.Utf8Lossy
import Zvault.Crypto.PairingUri
import Zvault.Ssh.Agent
import Zvault.Counting.Words
import Zvault.Passwords.Password
import Zvault.EmergencyKit.Literals
import Zvault.EmergencyKit.Pdf
import Zvault.EmergencyKit.Kit
import Zvault.EmergencyKit.Shown
import Zvault.EmergencyKit.Read
import Zvault.ProjectSync.Stored
import Zvault.Browser.SaveOffers
import Zvault.Js.Numerals
import Zvault.ShareWeb.Params
import Zvault.ShareWeb.Totp
import Zvault.Text.FixedWidth
import Zvault.Calendar.Gregorian
import Zvault.Calendar.Dates
import Zvault.TwoFactor.Base32
import Zvault.Vault.Mirror
import Zvault.Versions.Record
import Zvault.Vault.Store
import Zvault.Vault.History
import Zvault.Vault.Trash
import Zvault.Projects.History
import Zvault.Projects.Trash
import Zvault.History.LostUpdates
import Zvault.History.Trash
import Zvault.Agents.Release
import Zvault.Projects.Tidy
import Zvault.Projects.Copy
import Zvault.Projects.Recalled
import Zvault.Projects.InStep
import Zvault.Projects.Converges
import Zvault.Projects.Repairs
import Zvault.Projects.Pages
import Zvault.Crypto.Shares
import Zvault.Sharing.Device
import Zvault.Sharing.LinkPage
import Zvault.Sharing.UserShares
import Zvault.Bytes.Frames
import Zvault.Browser.Channel
import Zvault.Browser.Wire
import Zvault.Browser.Replies
import Zvault.Passwords.Passphrase
import Zvault.Crypto.AccountKeys
import Zvault.Auth.Keyset
import Zvault.Auth.KeysetKept
