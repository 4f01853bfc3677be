import KeyTree.Host
import KeyTree.Key
import KeyTree.Text.Quoted

/-!
# Locations

A URI of the store names a bucket and a text inside it. It is cut the way generic URIs are: tabs
and line breaks are removed, the authority ends at the first `/`, `?` or `#`, and a fragment and
then a query are cut off what follows. The authority is the name of the bucket.

## Main definitions

* `Location.parse` — the bucket and the text below it, or what is wrong with the URI.
* `Location.Fault` — what can be wrong.
-/

namespace KeyTree

/-- A bucket and a text inside it. -/
structure Location where
  bucket : List Char
  rest : List Char
deriving DecidableEq, Repr

namespace Location

/-- What can be wrong with a URI of the store. -/
inductive Fault where
  /-- The scheme is missing. -/
  | foreignScheme (uri : Path)
  /-- The authority is empty. -/
  | missingBucket (uri : Path)
  /-- The brackets of the authority are out of place. -/
  | misplacedBracket
  /-- The brackets of the authority enclose no address. -/
  | noAddress (host : List Char)
  /-- The brackets of the authority enclose an address of version 4. -/
  | octetsInBrackets
  /-- The brackets of the authority enclose a version without an address. -/
  | noFutureAddress
  /-- A character of the authority has a compatibility form with a delimiter in it. -/
  | disguisedDelimiter (authority : List Char)
deriving DecidableEq, Repr

/-- The text of a fault. -/
def Fault.message : Fault → List Char
  | .foreignScheme uri => "S3 path must start with 's3://': ".toList ++ uri
  | .missingBucket uri => "Invalid S3 path, missing bucket: ".toList ++ uri
  | .misplacedBracket => "Invalid IPv6 URL".toList
  | .noAddress host =>
    Text.Quoted.encode host ++ " does not appear to be an IPv4 or IPv6 address".toList
  | .octetsInBrackets => "An IPv4 address cannot be in brackets".toList
  | .noFutureAddress => "IPvFuture address is invalid".toList
  | .disguisedDelimiter authority =>
    "netloc '".toList ++ authority ++
      "' contains invalid characters under NFKC normalization".toList

/-- Tabs and line breaks are removed from a URI before it is cut. -/
def isRemoved (c : Char) : Bool :=
  c = '\t' || c = '\n' || c = '\r'

/-- The characters that end the authority. -/
def endsAuthority (c : Char) : Bool :=
  c = '/' || c = '?' || c = '#'

/-- The characters whose compatibility form holds one of `/`, `?`, `#`, `@` and `:`, those
themselves aside. -/
def hasDelimiterForm (c : Char) : Bool :=
  [0x2047, 0x2048, 0x2049, 0x2100, 0x2101, 0x2105, 0x2106, 0x2a74, 0xfe13, 0xfe16, 0xfe55, 0xfe56,
    0xfe5f, 0xfe6b, 0xff03, 0xff0f, 0xff1a, 0xff1f, 0xff20].contains c.toNat

/-- The text after the last `@`, all of it if there is none. -/
def afterUser (authority : List Char) : List Char :=
  (authority.reverse.takeWhile (· ≠ '@')).reverse

/-- What is wrong with a host in brackets, if anything. It is an address of version 6, or one of a
later version, which starts with `v`. -/
def hostFault? (host : List Char) : Option Fault :=
  if host.head? = some 'v' then if Host.isFuture host then none else some .noFutureAddress
  else if Host.isVersion4 host then some .octetsInBrackets
  else if Host.isVersion6 host then none
  else some (.noAddress host)

/-- What is wrong with the brackets of an authority, if anything. Brackets come in both kinds or not
at all. A host in brackets follows the user part at once, and what comes after it starts with a
colon. If the brackets are all in the user part, the host ends at a colon and is checked all the
same. -/
def bracketFault? (authority : List Char) : Option Fault :=
  if '[' ∈ authority ∧ ']' ∈ authority then
    match afterUser authority with
    | '[' :: bracketed =>
      let port := (bracketed.dropWhile (· ≠ ']')).drop 1
      if port = [] ∨ port.head? = some ':' then hostFault? (bracketed.takeWhile (· ≠ ']'))
      else some .misplacedBracket
    | host =>
      if '[' ∈ host then some .misplacedBracket else hostFault? (host.takeWhile (· ≠ ':'))
  else if '[' ∈ authority ∨ ']' ∈ authority then some .misplacedBracket
  else none

/-- The bucket and the text below it that a URI names. -/
def parse (uri : Path) : Except Fault Location :=
  if ¬ scheme <+: uri then .error (.foreignScheme uri)
  else
    let text := (uri.filter (!isRemoved ·)).drop scheme.length
    let authority := text.takeWhile (!endsAuthority ·)
    let path := ((text.dropWhile (!endsAuthority ·)).takeWhile (· ≠ '#')).takeWhile (· ≠ '?')
    match bracketFault? authority with
    | some fault => .error fault
    | none =>
      if authority.any hasDelimiterForm then .error (.disguisedDelimiter authority)
      else if authority.isEmpty then .error (.missingBucket uri)
      else .ok ⟨authority, Key.trimStart path⟩

end Location

end KeyTree
