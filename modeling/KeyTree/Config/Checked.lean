import KeyTree.Config.Value

/-!
# Records of checked fields

A record is checked field by field. All fields are read, whatever the others give, and their issues
are listed in the order in which the fields are declared; fields that are not declared follow.

## Main definitions

* `Checked` — a checked value, or the issues found.
* `Fields.read` — a declared field with its default.
* `Fields.only` — no other fields.
-/

namespace KeyTree.Config

/-- A problem and the field it was found in. -/
structure Issue where
  field : String
  problem : Problem
deriving DecidableEq, Repr

/-- A checked value, or the issues found, in order. -/
abbrev Checked (α : Type) := Except (List Issue) α

namespace Checked

/-- Both values, or the issues of both. -/
def both {α β : Type} : Checked α → Checked β → Checked (α × β)
  | .ok a, .ok b => .ok (a, b)
  | .ok _, .error issues => .error issues
  | .error issues, .ok _ => .error issues
  | .error issues, .error more => .error (issues ++ more)

theorem both_eq_ok {α β : Type} {x : Checked α} {y : Checked β} {a : α} {b : β} :
    both x y = .ok (a, b) ↔ x = .ok a ∧ y = .ok b := by
  cases x <;> cases y <;> simp [both]

end Checked

/-- Named values as they arrive, each name once. -/
abbrev Fields := List (String × Value)

namespace Fields

/-- A declared field: its value as read, or its default if it is absent. -/
def read {α : Type} (fields : Fields) (name : String) (default : α)
    (reading : Value → Reading α) : Checked α :=
  match fields.lookup name with
  | none => .ok default
  | some value =>
    match reading value with
    | .ok a => .ok a
    | .error problem => .error [⟨name, problem⟩]

/-- The fields that are not declared are issues. -/
def only (fields : Fields) (declared : List String) : Checked Unit :=
  match fields.filter (fun field => field.1 ∉ declared) with
  | [] => .ok ()
  | unknown => .error (unknown.map fun field => ⟨field.1, .unknownField⟩)

end Fields

end KeyTree.Config
