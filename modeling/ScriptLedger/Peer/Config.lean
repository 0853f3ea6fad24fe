import ScriptLedger.Peer.Basic
import ScriptLedger.Script.Integer
import ScriptLedger.Script.Limits
import ScriptLedger.Text.Quoted

/-!
# Configuration of a peer

A peer is configured by a document, in which every part may be left out, or by
four settings on top of the defaults.  A setting is text with any blanks
around it; one that cannot be read is refused and the text shown as it was
given.  The number of lanes of the miner has no default of its own: it is that
of the machine.
-/

namespace ScriptLedger

/-- The configuration of a peer. -/
structure Config where
  /-- The account that gets the fees of the blocks mined here. -/
  minerAddress : Hash := Genesis.address
  /-- Blocks without transactions to mine at the start. -/
  bootstrapBlocks : UInt64 := 10
  rules : Rules := {}
  miner : Miner
deriving DecidableEq

namespace Config

/-- The defaults on a machine with so many lanes. -/
def default (threads : UInt8) : Config := { miner := { threads } }

/-- A peer without blocks. -/
def peer (config : Config) : Peer :=
  { chain := Chain.empty config.rules, miner := config.miner
    minerAddress := config.minerAddress }

/-! ## Documents -/

/-- A number that fits a byte. -/
def byte? (j : Json) : Option UInt8 :=
  j.uint64?.bind fun n => if n.toNat < 256 then some n.toUInt8 else none

/-- The miner that a document writes. -/
def minerOfJson? (threads : UInt8) (j : Json) : Option Miner := do
  let default : Miner := { threads }
  match ← j.fields? ["threads", "max_attempts"] with
  | [threads, maxAttempts] =>
    let threads ← Json.orElse? byte? default.threads threads
    let maxAttempts ← Json.orElse? Json.uint64? default.maxAttempts maxAttempts
    pure { threads, maxAttempts }
  | _ => none

/-- The rules and the miner that a document writes. -/
def productionOfJson? (threads : UInt8) (j : Json) : Option (Rules × Miner) := do
  let default : Rules := {}
  match ← j.fields? ["difficulty", "pow", "vm"] with
  | [difficulty, miner, limits] =>
    let difficulty ← Json.orElse? Json.uint64? default.difficulty difficulty
    let miner ← Json.orElse? (minerOfJson? threads) { threads } miner
    let limits ← Json.orElse? Limits.ofJson? default.limits limits
    pure ({ difficulty, limits }, miner)
  | _ => none

/-- The configuration that a document writes, on a machine with so many
lanes. -/
def ofJson? (threads : UInt8) (j : Json) : Option Config := do
  let default := Config.default threads
  match ← j.fields? ["miner_address", "bootstrap_blocks", "production"] with
  | [minerAddress, bootstrapBlocks, production] =>
    let minerAddress ← Json.orElse? (Json.blob? .hash) default.minerAddress minerAddress
    let bootstrapBlocks ← Json.orElse? Json.uint64? default.bootstrapBlocks bootstrapBlocks
    let (rules, miner) ←
      Json.orElse? (productionOfJson? threads) (default.rules, default.miner) production
    pure { minerAddress, bootstrapBlocks, rules, miner }
  | _ => none

end Config

/-! ## Settings -/

/-- What can be set on top of the defaults. -/
inductive Setting
  | minerAddress
  | powThreads
  | difficulty
  | bootstrapBlocks
deriving Repr, DecidableEq

/-- The name of a setting. -/
def Setting.key : Setting → String
  | .minerAddress => "MC_MINER_ADDRESS"
  | .powThreads => "MC_POW_THREADS"
  | .difficulty => "MC_DIFFICULTY"
  | .bootstrapBlocks => "MC_BOOTSTRAP_BLOCKS"

/-- A setting that was refused, with the text that was given for it. -/
structure ConfigError where
  setting : Setting
  text : String
deriving Repr, DecidableEq

/-- The wording of a refusal. -/
def ConfigError.message (e : ConfigError) : String :=
  "invalid value for " ++ e.setting.key ++ ": " ++ Text.quoteText e.text

namespace Setting

/-- The number below a bound that a text writes in decimal, perhaps behind a
plus. -/
def natural? (bound : Nat) (text : String) : Option Nat :=
  let digits :=
    match text.toList with
    | '+' :: rest => rest
    | rest => rest
  (Script.digits? 10 Script.decimalValue? digits).filter (· < bound)

/-- The value of a setting, absent if it is not given. -/
def value? {α : Type} (setting : Setting) (given : String → Option String)
    (read? : String → Option α) : Except ConfigError (Option α) :=
  match given setting.key with
  | none => .ok none
  | some text =>
    match read? (Text.trim text) with
    | some a => .ok (some a)
    | none => .error ⟨setting, text⟩

/-- The value of a setting below a bound that may not be zero. -/
def positive? (setting : Setting) (given : String → Option String) (bound : Nat) :
    Except ConfigError (Option Nat) := do
  let value ← setting.value? given (natural? bound)
  if value = some 0 then throw ⟨setting, "0"⟩
  pure value

end Setting

/-- The configuration with every setting that is given. -/
def Config.withSettings (config : Config) (given : String → Option String) :
    Except ConfigError Config := do
  let address ← Setting.value? .minerAddress given fun text => (Blob.ofHex .hash text).toOption
  let threads ← Setting.positive? .powThreads given UInt8.size
  let difficulty ← Setting.positive? .difficulty given UInt64.size
  let blocks ← Setting.value? .bootstrapBlocks given (Setting.natural? UInt64.size)
  pure { config with
    minerAddress := address.getD config.minerAddress
    bootstrapBlocks := (blocks.map UInt64.ofNat).getD config.bootstrapBlocks
    rules := { config.rules with
      difficulty := (difficulty.map UInt64.ofNat).getD config.rules.difficulty }
    miner := { config.miner with
      threads := (threads.map UInt8.ofNat).getD config.miner.threads } }

end ScriptLedger
