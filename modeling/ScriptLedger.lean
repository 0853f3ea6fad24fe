import ScriptLedger.Account.Basic
import ScriptLedger.Account.Storage
import ScriptLedger.Block.Basic
import ScriptLedger.Block.Build
import ScriptLedger.Block.Error
import ScriptLedger.Block.Header
import ScriptLedger.Bytes.Blob
import ScriptLedger.Bytes.Hex
import ScriptLedger.Chain.Basic
import ScriptLedger.Curve.Edwards25519
import ScriptLedger.Digest.Basic
import ScriptLedger.Digest.Sha2
import ScriptLedger.Json.Basic
import ScriptLedger.Json.Fields
import ScriptLedger.Json.Printer
import ScriptLedger.Json.Reader
import ScriptLedger.Json.Token
import ScriptLedger.Key.Seeded
import ScriptLedger.Key.Signing
import ScriptLedger.Machine.Accounts
import ScriptLedger.Machine.Basic
import ScriptLedger.Machine.Registers
import ScriptLedger.Machine.Run
import ScriptLedger.Peer.Basic
import ScriptLedger.Peer.Config
import ScriptLedger.Peer.Request
import ScriptLedger.Proofs.Account.Change
import ScriptLedger.Proofs.Account.Validity
import ScriptLedger.Proofs.Block.Build
import ScriptLedger.Proofs.Block.Confined
import ScriptLedger.Proofs.Block.Rebuild
import ScriptLedger.Proofs.Chain.Ancestry
import ScriptLedger.Proofs.Chain.Confluence
import ScriptLedger.Proofs.Chain.First
import ScriptLedger.Proofs.Chain.ForkChoice
import ScriptLedger.Proofs.Chain.Heads
import ScriptLedger.Proofs.Chain.Rejection
import ScriptLedger.Proofs.Chain.Revalidation
import ScriptLedger.Proofs.Chain.Sound
import ScriptLedger.Proofs.Chain.Stage
import ScriptLedger.Proofs.Chain.Supply
import ScriptLedger.Proofs.Digest.Numbers
import ScriptLedger.Proofs.Json.RoundTrip
import ScriptLedger.Proofs.Machine.Bounded
import ScriptLedger.Proofs.Machine.Calls
import ScriptLedger.Proofs.Machine.Coherent
import ScriptLedger.Proofs.Machine.Confined
import ScriptLedger.Proofs.Machine.Conservation
import ScriptLedger.Proofs.Machine.Housed
import ScriptLedger.Proofs.Machine.Likeness
import ScriptLedger.Proofs.Machine.Nesting
import ScriptLedger.Proofs.Machine.Spending
import ScriptLedger.Proofs.Machine.StepLimit
import ScriptLedger.Proofs.Machine.Within
import ScriptLedger.Proofs.Machine.Writes
import ScriptLedger.Proofs.Peer.Handover
import ScriptLedger.Proofs.Peer.Interleaving
import ScriptLedger.Proofs.Peer.Reached
import ScriptLedger.Proofs.Record.Canonical
import ScriptLedger.Proofs.Record.Document
import ScriptLedger.Proofs.Sequencing
import ScriptLedger.Proofs.Trie.Commitment
import ScriptLedger.Proofs.Trie.Line
import ScriptLedger.Proofs.Trie.Update
import ScriptLedger.Proofs.Trie.Views
import ScriptLedger.Proofs.Trie.Regular
import ScriptLedger.Proofs.Trie.Union
import ScriptLedger.Proofs.Trie.Places
import ScriptLedger.Proofs.Trie.Recipe
import ScriptLedger.Proofs.Trie.Session
import ScriptLedger.Proofs.Trie.Evidence
import ScriptLedger.Proofs.Work.Target
import ScriptLedger.Proofs.World.Archive
import ScriptLedger.Proofs.World.Booking
import ScriptLedger.Proofs.World.Commit
import ScriptLedger.Proofs.World.Commitment
import ScriptLedger.Proofs.World.Confined
import ScriptLedger.Proofs.World.Desk
import ScriptLedger.Proofs.World.Effect
import ScriptLedger.Proofs.World.Fork
import ScriptLedger.Proofs.World.Likeness
import ScriptLedger.Proofs.World.PartialView
import ScriptLedger.Proofs.World.Relocation
import ScriptLedger.Proofs.World.Supply
import ScriptLedger.Proofs.World.Transition
import ScriptLedger.Proofs.World.WellFormed
import ScriptLedger.Record.Basic
import ScriptLedger.Record.Error
import ScriptLedger.Script.Error
import ScriptLedger.Script.Integer
import ScriptLedger.Script.Limits
import ScriptLedger.Script.Opcode
import ScriptLedger.Script.Program
import ScriptLedger.Script.Stack
import ScriptLedger.Script.Token
import ScriptLedger.Script.Value
import ScriptLedger.Text.Blank
import ScriptLedger.Text.Invisible
import ScriptLedger.Text.Quoted
import ScriptLedger.Transaction.Basic
import ScriptLedger.Transaction.Signed
import ScriptLedger.Trie.Basic
import ScriptLedger.Trie.Node
import ScriptLedger.Trie.Path
import ScriptLedger.Trie.View
import ScriptLedger.Word
import ScriptLedger.Work.Search
import ScriptLedger.Work.Target
import ScriptLedger.World.Archive
import ScriptLedger.World.Basic
import ScriptLedger.World.Genesis
import ScriptLedger.World.Transition
import ScriptLedger.Proofs.Trie.Canonical
import ScriptLedger.Proofs.Trie.Listing
import ScriptLedger.Proofs.Trie.FiniteMap
import ScriptLedger.Proofs.Record.Digest
import ScriptLedger.Proofs.World.Progress
import ScriptLedger.Proofs.Block.Resigning
import ScriptLedger.Proofs.Chain.Replay
import ScriptLedger.Proofs.World.Validity
import ScriptLedger.Proofs.Script.Scanner
import ScriptLedger.Proofs.Script.Parser
import ScriptLedger.Proofs.Script.Display
import ScriptLedger.Proofs.Machine.StackLimits
import ScriptLedger.Proofs.Machine.Fresh
import ScriptLedger.Proofs.Machine.AllOrNothing
import ScriptLedger.Proofs.Machine.Stretches
import ScriptLedger.Proofs.Machine.Arithmetic
import ScriptLedger.Proofs.Machine.Frames
import ScriptLedger.Proofs.Machine.Euclid
import ScriptLedger.Proofs.Transaction.Balance
import ScriptLedger.Proofs.Transaction.Signing
import ScriptLedger.Proofs.Block.Submission
import ScriptLedger.Proofs.Peer.Mining
import ScriptLedger.Proofs.Machine.Factory
import ScriptLedger.Proofs.Script.Layout
import ScriptLedger.Proofs.Script.Places
import ScriptLedger.Proofs.World.Sizes
import ScriptLedger.Proofs.Work.Search
import ScriptLedger.Proofs.Work.Difficulty
import ScriptLedger.Proofs.Script.Numerals
import ScriptLedger.Proofs.Script.Words
import ScriptLedger.Proofs.Script.Descent
import ScriptLedger.Proofs.Script.Grammar
