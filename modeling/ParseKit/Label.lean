import ParseKit.Violation

/-!
Labels of tree nodes. A node does not hold its symbol: it holds a word of 32 bits whose two high
bits choose a table and whose 30 low bits are an index into it.
-/

namespace ParseKit

inductive Label.Kind where
  | none
  | token
  | nonterminal
  | virtual
deriving DecidableEq

/-- A table and an index in one word. -/
structure Label where
  bits : UInt32
deriving DecidableEq

namespace Label

namespace Kind

def code : Kind → Nat
  | none => 0
  | token => 1
  | nonterminal => 2
  | virtual => 3

/-- The table with these two bits; higher bits are left out. -/
def ofCode (code : Nat) : Kind :=
  match code % 4 with
  | 0 => none
  | 1 => token
  | 2 => nonterminal
  | _ => virtual

def name : Kind → String
  | none => "None"
  | token => "Token"
  | nonterminal => "Variable"
  | virtual => "Virtual"

def all : List Kind := [none, token, nonterminal, virtual]

def ofName? (name : String) : Option Kind := all.find? fun kind => kind.name == name

end Kind

/-- The number of indices of a table: thirty bits hold no more. -/
def indexCount : Nat := 0x40000000

def maxIndex : Nat := indexCount - 1

def empty : Label := ⟨0⟩

instance : Inhabited Label := ⟨empty⟩

def pack (kind : Kind) (index : Nat) : Except Violation Label :=
  if index ≤ maxIndex then .ok ⟨UInt32.ofNat (kind.code * indexCount + index)⟩
  else .error (.indexTooLarge index)

def kind (label : Label) : Kind := .ofCode (label.bits.toNat / indexCount)

def index (label : Label) : Nat := label.bits.toNat % indexCount

def isNone (label : Label) : Bool := label.kind == .none

instance : ToString Label := ⟨fun label => label.kind.name ++ "#" ++ toString label.index⟩

end Label

end ParseKit
