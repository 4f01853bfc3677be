import KeyTree.Config.Checked
import KeyTree.Key

/-!
# Configuration of a directory tree

How directories are flagged in a bucket, how many names a listing asks for at a time, and the
ownership that every path reports.

## Main definitions

* `TreeConfig` — a configuration; its fields satisfy the bounds that reading checks.
* `TreeConfig.ofFields` — a configuration from named values.
-/

namespace KeyTree

open Config

/-- The configuration of a directory tree. -/
structure TreeConfig where
  /-- What a directory's marker has after the directory's key. -/
  suffix : List Char := "_$folder$".toList
  /-- The largest number of names that one listing request asks for. -/
  pageSize : Nat := 1000
  /-- Whether a directory that is only implied by the keys below it gets a marker when it is
  noticed. -/
  materialize : Bool := true
  owner : String := ""
  group : String := ""
  mode : Int := 511
  suffix_ne_nil : suffix ≠ [] := by decide
  separator_notMem_suffix : separator ∉ suffix := by decide
  pageSize_pos : 0 < pageSize := by decide

namespace TreeConfig

/-- The configuration without any field given. -/
def standard : TreeConfig := {}

instance : Inhabited TreeConfig := ⟨standard⟩

/-- The suffixes that can end a marker. -/
abbrev Suffix := { suffix : List Char // suffix ≠ [] ∧ separator ∉ suffix }

/-- A suffix is a text that is not empty and holds no separator. -/
def readSuffix (value : Value) : Reading Suffix := do
  let suffix := (← value.text?).toList
  if empty : suffix = [] then throw .emptySuffix
  else if separated : separator ∈ suffix then throw (.separatorInSuffix suffix)
  else return ⟨suffix, empty, separated⟩

/-- An integer above zero. -/
def readPositive (value : Value) : Reading { n : Nat // 0 < n } := do
  let n ← value.integer?
  if positive : 0 < n then return ⟨n.toNat, by omega⟩ else throw (.notAbove 0)

/-- The names of the fields. -/
def fieldNames : List String :=
  ["folder_suffix", "listing_length", "materialize_implicit_directories", "default_owner",
    "default_group", "default_mode"]

/-- The configuration that named values describe, or what is wrong with them. -/
def ofFields (fields : Fields) : Checked TreeConfig :=
  let suffix := fields.read "folder_suffix"
    ⟨standard.suffix, standard.suffix_ne_nil, standard.separator_notMem_suffix⟩ readSuffix
  let pageSize := fields.read "listing_length" ⟨standard.pageSize, standard.pageSize_pos⟩
    readPositive
  let materialize := fields.read "materialize_implicit_directories" standard.materialize
    Value.flag?
  let owner := fields.read "default_owner" standard.owner Value.text?
  let group := fields.read "default_group" standard.group Value.text?
  let mode := fields.read "default_mode" standard.mode Value.integer?
  (suffix.both (pageSize.both (materialize.both (owner.both (group.both
    (mode.both (fields.only fieldNames))))))).map
    fun (suffix, pageSize, materialize, owner, group, mode, _) =>
      { suffix := suffix.1, pageSize := pageSize.1, materialize, owner, group, mode,
        suffix_ne_nil := suffix.2.1, separator_notMem_suffix := suffix.2.2,
        pageSize_pos := pageSize.2 }

/-- Assigning to a field of a configuration is always refused, whether the field exists or not. -/
def assign {α : Type} (_ : TreeConfig) (name : String) (_ : Value) : Checked α :=
  .error [⟨name, .frozen⟩]

end TreeConfig

end KeyTree
