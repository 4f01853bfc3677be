import KeyTree.Config.Checked
import KeyTree.Number.Shortest

/-!
# Configuration of a connection

Which credentials a connection to the store uses, and how it waits and retries. A profile comes
before explicit credentials, and those before the default chain.

## Main definitions

* `ConnectionConfig` — a configuration, with `ConnectionConfig.ofFields`.
* `Connection` — what a connection is opened with, with `Connection.ofConfig`.
* `Connector` — opens a connection at its first use and keeps it.
-/

namespace KeyTree

open Config Number

/-- The configuration of connections to the store. -/
structure ConnectionConfig where
  accessKeyId : Option String := none
  secretAccessKey : Option String := none
  sessionToken : Option String := none
  region : String := "us-east-1"
  endpoint : Option String := none
  profile : Option String := none
  connectTimeout : Binary64 := Binary64.ofDecimal false 50 0
  readTimeout : Binary64 := Binary64.ofDecimal false 50 0
  poolSize : Int := 1024
  attempts : Int := 3
deriving DecidableEq, Repr

namespace ConnectionConfig

/-- The configuration without any field given. -/
def standard : ConnectionConfig := {}

/-- A number above zero. -/
def readTimeout? (value : Value) : Reading Binary64 := do
  let x ← value.number?
  if x.isPositive then return x else throw (.notAbove 0)

/-- An integer above zero. -/
def readPositive (value : Value) : Reading Int := do
  let n ← value.integer?
  if 0 < n then return n else throw (.notAbove 0)

/-- An integer from one on. -/
def readAttempts (value : Value) : Reading Int := do
  let n ← value.integer?
  if 1 ≤ n then return n else throw (.below 1)

/-- The names of the fields. -/
def fieldNames : List String :=
  ["access_key_id", "secret_access_key", "session_token", "region_name", "endpoint_url",
    "aws_profile", "connect_timeout", "read_timeout", "max_pool_connections", "max_attempts"]

/-- The configuration that named values describe, or what is wrong with them. -/
def ofFields (fields : Fields) : Checked ConnectionConfig :=
  let accessKeyId := fields.read "access_key_id" none Value.optionalText?
  let secretAccessKey := fields.read "secret_access_key" none Value.optionalText?
  let sessionToken := fields.read "session_token" none Value.optionalText?
  let region := fields.read "region_name" standard.region Value.text?
  let endpoint := fields.read "endpoint_url" none Value.optionalText?
  let profile := fields.read "aws_profile" none Value.optionalText?
  let connectTimeout := fields.read "connect_timeout" standard.connectTimeout readTimeout?
  let readTimeout := fields.read "read_timeout" standard.readTimeout readTimeout?
  let poolSize := fields.read "max_pool_connections" standard.poolSize readPositive
  let attempts := fields.read "max_attempts" standard.attempts readAttempts
  (accessKeyId.both (secretAccessKey.both (sessionToken.both (region.both (endpoint.both
    (profile.both (connectTimeout.both (readTimeout.both (poolSize.both
      (attempts.both (fields.only fieldNames))))))))))).map
    fun (accessKeyId, secretAccessKey, sessionToken, region, endpoint, profile, connectTimeout,
        readTimeout, poolSize, attempts, _) =>
      { accessKeyId, secretAccessKey, sessionToken, region, endpoint, profile, connectTimeout,
        readTimeout, poolSize, attempts }

end ConnectionConfig

/-- Timeouts are written without an exponent between a ten-thousandth and ten to the sixteenth, and
exponents have two digits at least. -/
def timeoutLayout : DecimalLayout := ⟨-4, 15, 2⟩

/-- The text of a timeout. -/
def timeoutText : Binary64 → List Char
  | .finite negative magnitude =>
    let digits :=
      if magnitude.mantissa = 0 then ['0', '.', '0']
      else timeoutLayout.write (Decimal.shortest magnitude)
    if negative then '-' :: digits else digits
  | .infinite negative => if negative then "-inf".toList else "inf".toList
  | .nan => "nan".toList

/-- How a connection is authenticated. -/
inductive Credentials where
  | profile (name : String)
  | explicit (accessKeyId secretAccessKey : String) (sessionToken : Option String)
  | defaultChain
deriving DecidableEq, Repr

/-- What a connection is opened with. -/
structure Connection where
  config : ConnectionConfig
  credentials : Credentials
  endpoint : Option String
deriving DecidableEq, Repr

namespace Connection

/-- A text that is given and not empty. -/
def nonempty? (text : Option String) : Option String :=
  text.filter (· ≠ "")

/-- The connection that a configuration describes. Empty texts count as absent. -/
def ofConfig (config : ConnectionConfig) : Connection :=
  let credentials : Credentials :=
    match nonempty? config.profile with
    | some name => .profile name
    | none =>
      match nonempty? config.accessKeyId, nonempty? config.secretAccessKey with
      | some id, some secret => .explicit id secret (nonempty? config.sessionToken)
      | _, _ => .defaultChain
  { config, credentials, endpoint := nonempty? config.endpoint }

end Connection

/-- Opens a connection at its first use and keeps it. -/
structure Connector where
  config : ConnectionConfig
  /-- The connections opened so far, the latest first. -/
  opened : List Connection := []

namespace Connector

/-- The open connection, opened now if there is none. -/
def connect (connector : Connector) : Connection × Connector :=
  match connector.opened with
  | connection :: _ => (connection, connector)
  | [] =>
    let connection := Connection.ofConfig connector.config
    (connection, { connector with opened := [connection] })

/-- A second use of a connector opens nothing. -/
theorem connect_connect (connector : Connector) :
    connector.connect.2.connect = connector.connect := by
  unfold connect
  cases h : connector.opened <;> simp [h]

end Connector

end KeyTree
