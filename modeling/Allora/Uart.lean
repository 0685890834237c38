import Allora.Lib.Outcome

/-!
# `uart.rs` — reading a line

`read_line` fills a buffer from the keyboard and echoes what it reads. It counts twice: `count` is
how much of the buffer is used, and `max_len` how much is left.

The device is the bytes that are going to arrive and the bytes that were written to it. `read_byte`
waits as long as nothing arrives, so a call that has used up its input is still waiting, and that is
`timeout` here; interrupts and registers are left out.
-/

set_option autoImplicit false

namespace Allora

open Outcome

/-- `UART`. -/
structure Uart where
  input : List UInt8
  output : List UInt8

namespace Uart

/-- What `read_line` works on, and what it has written to the device. -/
structure ReadLine where
  buf : List UInt8
  maxLen : Nat
  count : Nat
  output : List UInt8

/-- Carriage return or line feed. -/
def endsLine (cur : UInt8) : Bool := cur == 0x0d || cur == 0x0a

/-- Delete or backspace. -/
def erases (cur : UInt8) : Bool := cur == 0x7f || cur == 0x08

/-- `checked_sub`. -/
def checkedSub (a b : Nat) : Option Nat := if b ≤ a then some (a - b) else none

/-- `checked_add`, for `usize`. -/
def checkedAdd (a b : Nat) : Option Nat := if a + b < 2 ^ 64 then some (a + b) else none

/-- `buf[i] = b`. -/
def store (buf : List UInt8) (i : Nat) (b : UInt8) : Outcome (List UInt8) :=
  if i < buf.length then ok (buf.set i b) else .panic "index out of bounds"

/-- The `match cur` of the loop, for a byte that does not end the line. -/
def ReadLine.key (echo : Bool) (s : ReadLine) (cur : UInt8) : Outcome ReadLine :=
  if erases cur then
    ok { s with
      output := if echo && s.count > 0 then s.output ++ [0x08, 0x20, 0x08] else s.output
      count := (checkedSub s.count 1).getD 0
      maxLen := (checkedAdd s.maxLen 1).getD 0 }
  else do
    let buf ← store s.buf s.count cur
    let count ← addChecked 64 s.count 1
    let maxLen ← subChecked s.maxLen 1
    pure ⟨buf, maxLen, count, if echo then s.output ++ [cur] else s.output⟩

/-- The loop of `read_line`, with the input it leaves. -/
def readLineLoop (echo : Bool) : List UInt8 → ReadLine → Outcome (ReadLine × List UInt8)
  | [], s => if s.maxLen > 0 then timeout else ok (s, [])
  | cur :: input, s =>
    if s.maxLen > 0 then
      if endsLine cur then
        ok (s, input)
      else do
        let s ← s.key echo cur
        readLineLoop echo input s
    else
      ok (s, cur :: input)

/-- `read_line`: the device, the buffer, and the part of it that is returned. -/
def readLine (u : Uart) (buf : List UInt8) (echo : Bool) :
    Outcome (Uart × List UInt8 × List UInt8) := do
  let (s, input) ← readLineLoop echo u.input ⟨buf, buf.length, 0, u.output⟩
  let output := if echo then s.output ++ [0x0a] else s.output
  if s.count ≤ s.buf.length then
    ok (⟨input, output⟩, s.buf, s.buf.take s.count)
  else
    .panic "range end index out of range"

end Uart
end Allora
