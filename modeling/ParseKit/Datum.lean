import ParseKit.Label
import ParseKit.Text.Location
import ParseKit.Token

/-!
Data in a general form, for exchange with other programs. Numbers are non-negative whole numbers
of a fixed width; anything else that looks like a number is not accepted. A record is read from
its fields by name, others being ignored, or from a list of exactly its fields in order.
-/

namespace ParseKit

inductive Datum where
  | null
  | flag (value : Bool)
  | whole (value : Nat)
  /-- A number with a sign, a fraction or an exponent. -/
  | otherNumber
  | text (value : String)
  | list (items : List Datum)
  | record (fields : List (String × Datum))
deriving Inhabited

class Portable (α : Type) where
  toDatum : α → Datum
  ofDatum? : Datum → Option α

export Portable (toDatum ofDatum?)

namespace Datum

def wholeBelow? (limit : Nat) : Datum → Option Nat
  | whole value => if value < limit then some value else none
  | _ => none

/-- The values of the named fields in order. -/
def fields? (names : List String) : Datum → Option (List Datum)
  | record fields => names.mapM fun name => List.lookup name fields
  | list items => if items.length = names.length then some items else none
  | _ => none

end Datum

instance : Portable UInt32 where
  toDatum value := .whole value.toNat
  ofDatum? datum := (datum.wholeBelow? UInt32.size).map .ofNat

instance : Portable Label where
  toDatum label := toDatum label.bits
  ofDatum? datum := (ofDatum? datum).map Label.mk

/-- A table of labels travels as its name, alone or as the only field of a record, with nothing in
it. -/
instance : Portable Label.Kind where
  toDatum kind := .text kind.name
  ofDatum?
    | .text name => Label.Kind.ofName? name
    | .record [(name, .null)] => Label.Kind.ofName? name
    | _ => none

instance : Portable Token where
  toDatum token :=
    .record [("terminal_id", toDatum token.terminalId), ("index", toDatum token.index)]
  ofDatum? datum := do
    match ← datum.fields? ["terminal_id", "index"] with
    | [terminalId, index] => return ⟨← ofDatum? terminalId, ← ofDatum? index⟩
    | _ => none

instance : Portable Position where
  toDatum position := .record [("line", .whole position.line), ("column", .whole position.column)]
  ofDatum? datum := do
    match ← datum.fields? ["line", "column"] with
    | [line, column] => return ⟨← line.wholeBelow? wordLimit, ← column.wholeBelow? wordLimit⟩
    | _ => none

instance : Portable Span where
  toDatum span := .record [("index", .whole span.index), ("length", .whole span.length)]
  ofDatum? datum := do
    match ← datum.fields? ["index", "length"] with
    | [index, length] => return ⟨← index.wholeBelow? wordLimit, ← length.wholeBelow? wordLimit⟩
    | _ => none

end ParseKit
