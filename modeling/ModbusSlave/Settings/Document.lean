/-!
# Documents

The values that a configuration file is made of. Numbers with a fraction or an exponent take no part
in any setting, so they are not told apart. A structure is written as a record of its fields and can
also be read from a list of all of them in order.
-/
namespace ModbusSlave

inductive Document
  | null
  | boolean (b : Bool)
  | integer (n : Int)
  | fraction
  | text (s : String)
  | list (items : List Document)
  | record (members : List (String × Document))
deriving Inhabited

/-- A field of a structure; one that may be left out is null then. -/
structure Field where
  name : String
  optional : Bool

namespace Document

/-- The fields of a structure in their order. A record may have other members as well. -/
def fields (d : Document) (wanted : List Field) : Option (List Document) :=
  match d with
  | list items => if items.length = wanted.length then some items else none
  | record members =>
    wanted.mapM fun field =>
      match members.lookup field.name with
      | some value => some value
      | none => if field.optional then some null else none
  | _ => none

def alternative? : Document → Option String
  | text s => some s
  | record [(s, null)] => some s
  | _ => none

end Document

/-- How values of a type are read from documents and written to them. -/
structure Form (α : Type) where
  read : Document → Option α
  write : α → Document

namespace Form

variable {α : Type}

def natural (limit : Nat) : Form Nat where
  read
    | .integer (.ofNat n) => if n ≤ limit then some n else none
    | _ => none
  write n := .integer n

def optional (form : Form α) : Form (Option α) where
  read
    | .null => some none
    | d => (form.read d).map some
  write
    | none => .null
    | some a => form.write a

def oneOf (all : List α) (name : α → String) : Form α where
  read d := d.alternative?.bind fun s => all.find? fun a => name a == s
  write a := .text (name a)

end Form

end ModbusSlave
