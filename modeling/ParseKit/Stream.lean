import ParseKit.Token
import ParseKit.Violation

/-!
Token sources, and a stream over a source that can go back. The stream keeps the last 32 tokens
in a ring, of which at most 31 can be waiting to be handed out again: 32 would look like none.
-/

namespace ParseKit

/-- What hands out tokens one by one, and the empty token once it has no more. -/
class TokenSource (σ : Type) where
  next : σ → Except Violation (Token × σ)

instance : TokenSource (List Token) where
  next
    | [] => .ok (.epsilon, [])
    | token :: rest => .ok (token, rest)

def ringSize : Nat := 32

abbrev Slot := Fin ringSize

structure Replay (σ : Type) where
  source : σ
  ring : Vector Token ringSize
  start : Slot
  fill : Slot
  held : Nat

namespace Replay

variable {σ : Type}

def ofSource (source : σ) : Replay σ :=
  { source, ring := .replicate ringSize .epsilon, start := ⟨0, by decide⟩,
    fill := ⟨0, by decide⟩, held := 0 }

def after (slot : Slot) (n : Nat) : Slot :=
  ⟨(slot.val + n) % ringSize, Nat.mod_lt _ (by decide)⟩

def before (slot : Slot) (n : Nat) : Slot :=
  ⟨(slot.val + ringSize - n) % ringSize, Nat.mod_lt _ (by decide)⟩

def waiting (r : Replay σ) : Nat := (r.fill.val + ringSize - r.start.val) % ringSize

def window (r : Replay σ) : Nat := min r.held (ringSize - 1) - r.waiting

/-- The next token: a waiting one, or else one from the source. -/
def next [TokenSource σ] (r : Replay σ) : Except Violation (Token × Replay σ) :=
  if r.start ≠ r.fill then .ok (r.ring[r.start], { r with start := after r.start 1 })
  else
    (TokenSource.next r.source).map fun (token, source) =>
      (token,
        { source
          ring := r.ring.set r.fill token
          start := after r.fill 1
          fill := after r.fill 1
          held := min (r.held + 1) ringSize })

def rewind (r : Replay σ) (count : Nat) : Except Violation (Replay σ) :=
  if count ≤ r.window then .ok { r with start := before r.start count }
  else .error (.rewindTooFar count r.window)

instance [TokenSource σ] : TokenSource (Replay σ) := ⟨next⟩

def nextMany [TokenSource σ] (r : Replay σ) : Nat → Except Violation (List Token × Replay σ)
  | 0 => .ok ([], r)
  | n + 1 => do
    let (token, r) ← r.next
    let (tokens, r) ← r.nextMany n
    return (token :: tokens, r)

end Replay

end ParseKit
