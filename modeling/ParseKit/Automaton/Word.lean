/-!
Words of 16 and 32 bits as bytes, low byte first. A word is written by pushing its bytes, and a
run of words is read from a place at which it fits.
-/

namespace ParseKit

def bytes16 (w : UInt16) : List UInt8 :=
  [.ofNat (w.toNat % 256), .ofNat (w.toNat / 256)]

def bytes32 (w : UInt32) : List UInt8 :=
  [.ofNat (w.toNat % 256), .ofNat (w.toNat / 256 % 256), .ofNat (w.toNat / 65536 % 256),
    .ofNat (w.toNat / 16777216)]

def word16 (a b : UInt8) : UInt16 := .ofNat (a.toNat + 256 * b.toNat)

def word32 (a b c d : UInt8) : UInt32 :=
  .ofNat (a.toNat + 256 * b.toNat + 65536 * c.toNat + 16777216 * d.toNat)

/-! ### Writing -/

def push16 (bytes : ByteArray) (w : UInt16) : ByteArray := (bytes16 w).foldl ByteArray.push bytes

def push32 (bytes : ByteArray) (w : UInt32) : ByteArray := (bytes32 w).foldl ByteArray.push bytes

theorem toList_push16 (bytes : ByteArray) (w : UInt16) :
    (push16 bytes w).data.toList = bytes.data.toList ++ bytes16 w := by
  simp [push16, bytes16, ByteArray.data_push]

theorem toList_push32 (bytes : ByteArray) (w : UInt32) :
    (push32 bytes w).data.toList = bytes.data.toList ++ bytes32 w := by
  simp [push32, bytes32, ByteArray.data_push]

/-! ### Reading -/

def word16At (bytes : ByteArray) (i : Nat) (h : i + 2 ≤ bytes.size) : UInt16 :=
  word16 bytes[i] bytes[i + 1]

def word32At (bytes : ByteArray) (i : Nat) (h : i + 4 ≤ bytes.size) : UInt32 :=
  word32 bytes[i] bytes[i + 1] bytes[i + 2] bytes[i + 3]

def words16 (bytes : ByteArray) (start count : Nat) (h : start + 2 * count ≤ bytes.size) :
    Array UInt16 :=
  Array.ofFn fun i : Fin count => word16At bytes (start + 2 * i.val) (by omega)

def words32 (bytes : ByteArray) (start count : Nat) (h : start + 4 * count ≤ bytes.size) :
    Array UInt32 :=
  Array.ofFn fun i : Fin count => word32At bytes (start + 4 * i.val) (by omega)

end ParseKit
