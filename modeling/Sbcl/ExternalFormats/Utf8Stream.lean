import Sbcl.ExternalFormats.Utf8
import Sbcl.Lib.ByteSpec

/-!
# UTF-8 streams (code/external-formats/enc-basic.lisp, code/fd-stream.lisp)

* `utf8CharLoopTurn` : a turn of `utf8-char-loop` (without `:crlf`);
* `utf8FormatTurn` : a turn of the loop of an external format, with the size and character forms of
  `:utf-8`;
* `readNCharacters` : the loop itself, over what the buffer holds from `head` up to `tail`.

The octets at `sap` are read through `ref`, so a turn that would read at or after `tail` gives
nothing.
-/

namespace Sbcl.Utf8

open ByteSpec (dpb)

/-- How a turn ends: with a code for `code-char` and the octets that it takes, with `decode-break`,
or with a return because the octets of the character are not all there. -/
inductive Turn where
  | char (code size : ℕ)
  | decodeBreak (reason : ℕ)
  | incomplete
  deriving DecidableEq

/-- An octet as the code compares it. -/
def sapRef8 (sap : List Octet) (tail offset : ℕ) : Option ℕ := (ref sap tail offset).map Fin.val

section Turns
variable (sap : List Octet) (head tail : ℕ)

def utf8CharLoopTurn : Option Turn := do
  let byte ← sapRef8 sap tail head
  if byte < 128 then some (.char byte 1)
  else if byte < 194 then some (.decodeBreak 1)
  else if byte < 224 then
    let newHead := head + 2
    if newHead > tail then some .incomplete
    else do
      let byte2 ← sapRef8 sap tail (head + 1)
      if ¬(128 ≤ byte2 ∧ byte2 ≤ 191) then some (.decodeBreak 2)
        else some (.char (dpb byte 5 6 byte2) (newHead - head))
  else if byte < 240 then
    let newHead := head + 3
    if newHead > tail then some .incomplete
    else do
      let byte2 ← sapRef8 sap tail (head + 1)
      let byte3 ← sapRef8 sap tail (head + 2)
      if ¬((128 ≤ byte2 ∧ byte2 ≤ 191) ∧ (128 ≤ byte3 ∧ byte3 ≤ 191) ∧
        (byte ≠ 224 ∨ 160 ≤ byte2 ∧ byte2 ≤ 191) ∧
          (byte ≠ 237 ∨ 128 ≤ byte2 ∧ byte2 ≤ 159)) then some (.decodeBreak 3)
      else some (.char (dpb byte 4 12 (dpb byte2 6 6 byte3)) (newHead - head))
  else
    let newHead := head + 4
    if newHead > tail then some .incomplete
    else do
      let byte2 ← sapRef8 sap tail (head + 1)
      let byte3 ← sapRef8 sap tail (head + 2)
      let byte4 ← sapRef8 sap tail (head + 3)
      if ¬((128 ≤ byte2 ∧ byte2 ≤ 191) ∧ (128 ≤ byte3 ∧ byte3 ≤ 191) ∧ (128 ≤ byte4 ∧ byte4 ≤ 191) ∧
          (byte ≠ 240 ∨ 144 ≤ byte2 ∧ byte2 ≤ 191) ∧ (byte ≠ 244 ∨ 128 ≤ byte2 ∧ byte2 ≤ 143)) then
        some (.decodeBreak 4)
      else some (.char (dpb byte 3 18 (dpb byte2 6 12 (dpb byte3 6 6 byte4))) (newHead - head))

/-- The size form: the size, or the reason of `decode-break-reason`. -/
def sizeForm (byte : ℕ) : Except ℕ ℕ :=
  if byte < 0x80 then .ok 1
  else if byte < 0xc2 then .error 1
  else if byte < 0xe0 then .ok 2
  else if byte < 0xf0 then .ok 3
  else .ok 4

/-- The character form, but for its `code-char`. -/
def characterForm (byte size : ℕ) : Option (Except ℕ ℕ) :=
  match size with
  | 1 => some (.ok byte)
  | 2 => do
      let byte2 ← sapRef8 sap tail (head + 1)
      if ¬(0x80 ≤ byte2 ∧ byte2 ≤ 0xbf) then some (.error 2) else some (.ok (dpb byte 5 6 byte2))
  | 3 => do
      let byte2 ← sapRef8 sap tail (head + 1)
      let byte3 ← sapRef8 sap tail (head + 2)
      if ¬((0x80 ≤ byte2 ∧ byte2 ≤ 0xbf) ∧ (0x80 ≤ byte3 ∧ byte3 ≤ 0xbf) ∧
          (byte ≠ 0xe0 ∨ 0xa0 ≤ byte2 ∧ byte2 ≤ 0xbf) ∧
            (byte ≠ 0xed ∨ 0x80 ≤ byte2 ∧ byte2 ≤ 0x9f)) then some (.error 3)
      else some (.ok (dpb byte 4 12 (dpb byte2 6 6 byte3)))
  | 4 => do
      let byte2 ← sapRef8 sap tail (head + 1)
      let byte3 ← sapRef8 sap tail (head + 2)
      let byte4 ← sapRef8 sap tail (head + 3)
      if ¬((0x80 ≤ byte2 ∧ byte2 ≤ 0xbf) ∧ (0x80 ≤ byte3 ∧ byte3 ≤ 0xbf) ∧
        (0x80 ≤ byte4 ∧ byte4 ≤ 0xbf) ∧
          (byte ≠ 0xf0 ∨ 0x90 ≤ byte2 ∧ byte2 ≤ 0xbf) ∧
          (byte ≠ 0xf4 ∨ 0x80 ≤ byte2 ∧ byte2 ≤ 0x8f)) then
        some (.error 4)
      else some (.ok (dpb byte 3 18 (dpb byte2 6 12 (dpb byte3 6 6 byte4))))
  | _ => none

/-- A turn of the loop of the external format, which wants one octet at least. -/
def utf8FormatTurn : Option Turn :=
  if 1 > tail - head then some .incomplete
  else do
    let byte ← sapRef8 sap tail head
    match sizeForm byte with
    | .error reason => some (.decodeBreak reason)
    | .ok size =>
      if size > tail - head then some .incomplete
      else do
        match ← characterForm sap head tail byte size with
        | .error reason => some (.decodeBreak reason)
        | .ok code => some (.char code size)

end Turns

/-- What the loop leaves: the characters, the head of the buffer and the reason of a `decode-break`.
-/
structure Read where
  string : List ℕ
  head : ℕ
  decodeBreakReason : Option ℕ
  deriving DecidableEq

/-- The loop with room for `room` more characters. Nothing is returned when `code-char` is called
with a code that is no character's. -/
def readNCharacters (turn : List Octet → ℕ → ℕ → Option Turn) (sap : List Octet) (tail : ℕ) :
    (room head : ℕ) → Option Read
  | 0, head => some ⟨[], head, none⟩
  | room + 1, head =>
    if tail = head then some ⟨[], head, none⟩
    else
      match turn sap head tail with
      | none => none
      | some .incomplete => some ⟨[], head, none⟩
      | some (.decodeBreak reason) => some ⟨[], head, some reason⟩
      | some (.char code size) => do
          let char ← codeChar code
          let rest ← readNCharacters turn sap tail room (head + size)
          some { rest with string := char :: rest.string }

end Sbcl.Utf8
