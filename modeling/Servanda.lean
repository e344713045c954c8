import Servanda.Affordances
import Servanda.Anchor
import Servanda.AntiSpam
import Servanda.Attestation
import Servanda.Attribution
import Servanda.Base64
import Servanda.Bootstrap
import Servanda.Bounding
import Servanda.Bounds
import Servanda.Brief
import Servanda.Calendar
import Servanda.Capture
import Servanda.ChainStore
import Servanda.Chains
import Servanda.Changes
import Servanda.Checks
import Servanda.Clock
import Servanda.Commuting
import Servanda.Consequence
import Servanda.ContentKey
import Servanda.Continuity
import Servanda.Convergence
import Servanda.Courier
import Servanda.Crypto
import Servanda.Cursor
import Servanda.Custody
import Servanda.Cuts
import Servanda.Detection
import Servanda.Diff
import Servanda.Directory
import Servanda.Duration
import Servanda.Edge
import Servanda.Effects
import Servanda.Element
import Servanda.Envelope
import Servanda.Executor
import Servanda.Expiry
import Servanda.Extraction
import Servanda.Frame
import Servanda.Gestures
import Servanda.Git
import Servanda.GitTransport
import Servanda.Gradient
import Servanda.Grading
import Servanda.Handover
import Servanda.Hpke
import Servanda.Hub
import Servanda.IdentityHash
import Servanda.Inbox
import Servanda.Ingest
import Servanda.Instant
import Servanda.Jcs
import Servanda.Json
import Servanda.Judge
import Servanda.Kept
import Servanda.Keyboard
import Servanda.Keyset
import Servanda.Ladder
import Servanda.Lineage
import Servanda.Links
import Servanda.Log
import Servanda.Markup
import Servanda.Mcp
import Servanda.Membership
import Servanda.Message
import Servanda.Mime
import Servanda.Node
import Servanda.Paging
import Servanda.Parse
import Servanda.Parties
import Servanda.PassphraseSlots
import Servanda.Patch
import Servanda.Pending
import Servanda.Phrases
import Servanda.Primitives
import Servanda.ProofPage
import Servanda.Published
import Servanda.Queue
import Servanda.Ranking
import Servanda.ReadTools
import Servanda.Recon
import Servanda.RecordBinding
import Servanda.Redelivery
import Servanda.Register
import Servanda.Rekey
import Servanda.Replay
import Servanda.Replicas
import Servanda.Responder
import Servanda.Restore
import Servanda.Retention
import Servanda.Rewrap
import Servanda.Rotation
import Servanda.RotationHistory
import Servanda.Scan
import Servanda.Screen
import Servanda.Seal
import Servanda.Settlement
import Servanda.Signing
import Servanda.Soundness
import Servanda.StableSort
import Servanda.Statements
import Servanda.Stops
import Servanda.StoreInvariant
import Servanda.Strides
import Servanda.Succession
import Servanda.Successors
import Servanda.Supersession
import Servanda.Surface
import Servanda.Table
import Servanda.Terminal
import Servanda.Threads
import Servanda.Tools
import Servanda.Transitions
import Servanda.Unicode
import Servanda.Vault
import Servanda.Visibility
import Servanda.Windows
import Servanda.Wire
