import Sbcl.ExternalFormats.Utf8Stream
import Sbcl.Integer

/-!
# The copies of octets with CR LF for a newline (code/external-formats/enc-basic.lisp)

* `simdCopyLoop`, `simdCopyUtf8CrlfToCharacterStringWithSize` and its two siblings without sizes :
  two octets at a time, as long as they are ASCII;
* `utf8CrlfTurn`, `utf8CharLoop` : `utf8-char-loop` with `:crlf`, a character at a time.

A copy is the stores that it makes, in their order, and what it leaves for the head of the buffer
and for the index of the string. An octet is read through `ref` between the head at the start and
the tail; outside a copy gives nothing.
-/

namespace Sbcl.Utf8

/-- A store of a character, and of its size where there is a buffer for the sizes. -/
structure Store where
  index : ℕ
  code : ℕ
  size : Option ℕ
  deriving DecidableEq

structure Copied where
  stores : List Store
  head : ℕ
  index : ℕ
  deriving DecidableEq

def Copied.store (index code : ℕ) (size : Option ℕ) (rest : Copied) : Copied :=
  { rest with stores := ⟨index, code, size⟩ :: rest.stores }

section
variable (sized : Bool) (sap : List Octet) (low tail : ℕ)

/-- The size to store. -/
def sizeStore (size : ℕ) : Option ℕ := if sized then some size else none

/-- `sap-ref-16`, of little-endian memory. -/
def sapRef16 (head : ℕ) : Option ℕ :=
  if low ≤ head then do
    let byte1 ← sapRef8 sap tail head
    let byte2 ← sapRef8 sap tail (head + 1)
    some (byte1 + 2 ^ 8 * byte2)
  else none

def asciiMask : ℕ := 128 * (0x0101010101010101 % 2 ^ 16)

/-- The loop of the three copies; the index stands for the offsets in the string and in the buffer
of the sizes. -/
def simdCopyLoop (endHead : ℤ) (head index : ℕ) : Option Copied :=
  if (head : ℤ) < endHead then do
    let word ← sapRef16 sap low tail head
    if word &&& asciiMask ≠ 0 then some ⟨[], head, index⟩
    else if word = 0x0A0D then
      (simdCopyLoop endHead (head + 2) (index + 1)).map (.store index 10 (sizeStore sized 2))
    else if word >>> 8 = 13 then
      (simdCopyLoop endHead (head + 1) (index + 1)).map
        (.store index (word % 2 ^ 8) (sizeStore sized 1))
    else
      (simdCopyLoop endHead (head + 2) (index + 2)).map fun rest =>
        .store index (word % 2 ^ 8) (sizeStore sized 1)
          (.store (index + 1) (word >>> 8) (sizeStore sized 1) rest)
  else some ⟨[], head, index⟩
termination_by (endHead - head).toNat

/-- How many octets a copy to an index range looks at. -/
def copyLength (start stop head tail : ℕ) : ℤ :=
  logand (min ((stop : ℤ) - start) ((tail : ℤ) - head - 1)) (-2)

def simdCopy (start stop head : ℕ) : Option Copied :=
  simdCopyLoop sized sap head tail (head + copyLength start stop head tail) head start

/-- A turn of `utf8-char-loop` with `:crlf`; `eof` is whether there is a variable `eof`, and it is
true. -/
def utf8CrlfTurn (eof : Bool) (head : ℕ) : Option Turn := do
  let byte ← sapRef8 sap tail head
  if byte = 13 then do
    let newHead := head + 2
    if newHead ≤ tail then do
      if (← sapRef8 sap tail (head + 1)) = 10 then some (.char 10 2)
      else if eof then utf8CharLoopTurn sap head tail
      else some .incomplete
    else if eof then utf8CharLoopTurn sap head tail
    else some .incomplete
  else utf8CharLoopTurn sap head tail

/-- `utf8-char-loop` with `:crlf` and room for `room` more characters; the reason of a
`decode-break` is left out. -/
def utf8CharLoop (eof : Bool) : (room head index : ℕ) → Option Copied
  | 0, head, index => some ⟨[], head, index⟩
  | room + 1, head, index =>
    if tail = head then some ⟨[], head, index⟩
    else
      match utf8CrlfTurn sap tail eof head with
      | none => none
      | some .incomplete => some ⟨[], head, index⟩
      | some (.decodeBreak _) => some ⟨[], head, index⟩
      | some (.char code size) => do
          let char ← codeChar code
          (utf8CharLoop eof room (head + size) (index + 1)).map
            (.store index char (sizeStore sized size))

end

section
variable (start stop : ℕ) (sap : List Octet) (head tail : ℕ)

def simdCopyUtf8CrlfToCharacterStringWithSize : Option Copied :=
  simdCopy true sap tail start stop head

def simdCopyUtf8CrlfToCharacterString : Option Copied := simdCopy false sap tail start stop head

/-- The characters are stored as octets. -/
def simdCopyUtf8CrlfToBaseString : Option Copied := simdCopy false sap tail start stop head

end

end Sbcl.Utf8
