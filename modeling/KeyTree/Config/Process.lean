import KeyTree.Config.Checked

/-!
# Settings of the process

What is read from the environment: how events are logged, and whether spans are traced.
-/

namespace KeyTree

open Config

/-- The settings of the process. -/
structure ProcessSettings where
  logLevel : String := "WARNING"
  logFormat : String := "json"
  tracing : Bool := false
  serviceName : String := "bucketfs"
deriving DecidableEq, Repr

namespace ProcessSettings

/-- The settings without any variable set. -/
def standard : ProcessSettings := {}

/-- The lower-case form of a character as far as it is an ASCII letter: beside the ASCII capitals,
the kelvin sign has one. -/
def lowerAscii (c : Char) : Char :=
  if c = '\u212a' then 'k' else c.toLower

/-- What the names of the variables start with, in lower case. -/
def variableStart : List Char := "bucketfs_".toList

/-- The fields that an environment sets. Names of variables count in any letter case, a later
spelling of a name winning over an earlier one; other variables are ignored. -/
def fieldsOf (environment : List (String × String)) : Fields :=
  environment.reverse.filterMap fun (name, value) =>
    let lower := name.toList.map lowerAscii
    if variableStart <+: lower then
      some (String.ofList (lower.drop variableStart.length), .text value)
    else none

/-- The settings that an environment describes, or what is wrong with them. -/
def ofEnvironment (environment : List (String × String)) : Checked ProcessSettings :=
  let fields := fieldsOf environment
  let logLevel := fields.read "log_level" standard.logLevel Value.text?
  let logFormat := fields.read "log_format" standard.logFormat (Value.choice? ["json", "console"])
  let tracing := fields.read "otel_enabled" standard.tracing Value.flag?
  let serviceName := fields.read "otel_service_name" standard.serviceName Value.text?
  (logLevel.both (logFormat.both (tracing.both serviceName))).map
    fun (logLevel, logFormat, tracing, serviceName) =>
      { logLevel, logFormat, tracing, serviceName }

end ProcessSettings

end KeyTree
