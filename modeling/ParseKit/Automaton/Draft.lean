import ParseKit.Automaton.Table
import ParseKit.Text.Utf16
import ParseKit.Violation

/-!
Automata under construction. A `Draft` starts with state 0 and grows state by state and
transition by transition; `Draft.table` lays its states out one after another, and `Draft.toBytes`
is the binary form.

A character beyond U+FFFF takes two transitions: its lead surrogate leads to a hidden state,
shared by all characters with that surrogate, and its trail surrogate leads on from there.
-/

namespace ParseKit

structure DraftRange where
  low : UInt16
  high : UInt16
  target : UInt16
deriving DecidableEq

structure DraftState where
  terminal : UInt16
  direct : Vector UInt16 directCount
  ranges : Array DraftRange
deriving DecidableEq

namespace DraftState

def fresh (terminal : Option UInt16) : DraftState :=
  ⟨terminal.getD noTerminal, Vector.replicate directCount noTarget, #[]⟩

/-- The number of transitions; counts above the largest cell stop there. -/
def transitionCount (s : DraftState) : UInt16 :=
  .ofNat (min (s.direct.toArray.countP (· != noTarget) + s.ranges.size) 0xFFFF)

/-- The target of the first range that holds `value` alone. -/
def lone? (s : DraftState) (value : UInt16) : Option UInt16 :=
  (s.ranges.find? fun range => range.low == value && range.high == value).map (·.target)

/-- The block of a state; of the number of its ranges, only the low 16 bits are kept. -/
def block (s : DraftState) : Array UInt16 :=
  #[s.terminal, s.transitionCount, .ofNat s.ranges.size] ++ s.direct.toArray ++
    s.ranges.flatMap fun range => #[range.low, range.high, range.target]

end DraftState

structure Draft where
  states : Array DraftState
deriving DecidableEq

namespace Draft

def empty : Draft := ⟨#[.fresh none]⟩

def initial : UInt16 := 0

def stateCount (d : Draft) : Nat := d.states.size

def addState (d : Draft) (terminal : Option UInt16) : Except Violation (UInt16 × Draft) :=
  if d.stateCount < maxStates then
    .ok (.ofNat d.stateCount, ⟨d.states.push (.fresh terminal)⟩)
  else .error .tooManyStates

def change (d : Draft) (state : UInt16) (f : DraftState → DraftState) :
    Except Violation Draft :=
  if state.toNat < d.stateCount then .ok ⟨d.states.modify state.toNat f⟩
  else .error .outOfBounds

def setTerminal (d : Draft) (state terminal : UInt16) : Except Violation Draft :=
  d.change state fun s => { s with terminal }

def onByte (d : Draft) (source : UInt16) (value : UInt8) (target : UInt16) :
    Except Violation Draft :=
  d.change source fun s => { s with direct := s.direct.set value.toNat target value.toNat_lt }

def onBytes (d : Draft) (source : UInt16) (values : List UInt8) (target : UInt16) :
    Except Violation Draft :=
  values.foldlM (fun d value => d.onByte source value target) d

/-- Leads the values from `low` to `high`, which must lie above the direct ones, to a state. -/
def onRange (d : Draft) (source low high target : UInt16) : Except Violation Draft :=
  if directCount ≤ low.toNat ∧ low ≤ high then
    d.change source fun s => { s with ranges := s.ranges.push ⟨low, high, target⟩ }
  else .error (.badRange low high)

/-- Leads a character to a state, in the form that its code units need. -/
def onChar (d : Draft) (source : UInt16) (c : Char) (target : UInt16) :
    Except Violation Draft :=
  match Units.ofChar c with
  | .single unit =>
    if unit.toNat < directCount then d.onByte source (.ofNat unit.toNat) target
    else d.onRange source unit unit target
  | .pair lead trail => do
    let s ← inBounds d.states[source.toNat]?
    match s.lone? lead with
    | some middle => d.onRange middle trail trail target
    | none =>
      let (middle, d) ← d.addState none
      let d ← d.onRange source lead lead middle
      d.onRange middle trail trail target

def table (d : Draft) : CellTable :=
  d.states.foldl (fun t s => t.addBlock s.block) ⟨#[], #[]⟩

def toBytes (d : Draft) : ByteArray := d.table.toBytes

end Draft

end ParseKit
