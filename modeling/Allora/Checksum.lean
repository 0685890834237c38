import Allora.Apps

/-!
# `checksum`, in 32 bits

The sum is kept in a `u32`, which has room for the words of 131072 bytes. `checksum` in the model of
the server adds up natural numbers; here each addition is checked, and the loop that folds the
carries is on fuel.
-/

set_option autoImplicit false

namespace Allora
namespace Apps

open Outcome

/-- `payload[i]`. -/
def index (payload : List UInt8) (i : Nat) : Outcome UInt8 :=
  match payload[i]? with
  | some b => ok b
  | none => .panic "index out of bounds"

/-- `for i in 0..(payload.len() / 2)`, for the first `n` of them. -/
def sumPairs (payload : List UInt8) (n : Nat) : Outcome Nat :=
  (List.range n).foldlM (fun sum i => do
    let low ← index payload (i * 2 + 1)
    let high ← index payload (i * 2)
    addChecked 32 sum (low.toNat ||| (high.toNat <<< 8))) 0

/-- `while (sum >> 16) != 0`. -/
def foldSum : Nat → Nat → Outcome Nat
  | 0, _ => timeout
  | fuel + 1, sum =>
    if sum >>> 16 ≠ 0 then do
      let sum ← addChecked 32 (sum &&& 0xffff) (sum >>> 16)
      foldSum fuel sum
    else
      ok sum

/-- `checksum`. -/
def checksum32 (fuel : Nat) (payload : List UInt8) : Outcome Nat := do
  let sum ← sumPairs payload (payload.length / 2)
  let sum ←
    if payload.length % 2 ≠ 0 then do
      let last ← index payload (payload.length - 1)
      addChecked 32 sum last.toNat
    else
      pure sum
  let sum ← foldSum fuel sum
  -- `!(sum as u16)`
  pure (0xffff - sum % 65536)

end Apps
end Allora
