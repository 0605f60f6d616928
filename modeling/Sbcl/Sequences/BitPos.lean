import Sbcl.Integer
import Sbcl.Object

/-!
# Searching a bit vector (code/bit-bash.lisp)

* `computeStartMask`, `computeEndMask` : the bits of a word from an index on, and up to one;
* `scanForward`, `scanBackward` : the whole words, and the last chunk;
* `bitPosFwd`, `bitPosRev` : the first and the last one, in the words as they are or inverted.

A word that must not be read is not there, and a search that reads one returns nothing.
-/

namespace Sbcl.BitPos

def bitPositionBaseMask : ℕ := nWordBits - 1

def bitPositionBaseShift : ℕ := integerLength bitPositionBaseMask

/-- `%vector-raw-bits` -/
abbrev RawBits := ℕ → Option Word

def computeStartMask (index : ℕ) : ℤ :=
  let firstBits := index &&& bitPositionBaseMask
  ash (-1) firstBits

def computeEndMask (index : ℕ) : ℤ :=
  let lastBits := index &&& bitPositionBaseMask
  lognot (ash (-1) lastBits)

def calcIndex (wordIndex bitIndex : ℕ) : ℕ := bitIndex ||| wordIndex <<< bitPositionBaseShift

def startBit (x : ℤ) : ℕ := integerLength (ldb nWordBits 0 (logand x (-x) - 1))

def endBit (x : ℤ) : ℕ := integerLength x - 1

def getWord (frob : ℤ → ℤ) (vector : RawBits) (offset : ℕ) : Option ℤ :=
  (vector offset).map fun word => frob word.toNat

/-! ## The search -/

section Search

variable (frob : ℤ → ℤ) (vector : RawBits)

/-- Both masks pertain to a single word. -/
def oneWord (bit : ℤ → ℕ) (startMask endMask : ℤ) (firstWord : ℕ) : Option (Option ℕ) :=
  let mask := logand startMask endMask
  if mask = 0 then some none
  else do
    let word := logand mask (← getWord frob vector firstWord)
    if word = 0 then some none else some (some (calcIndex firstWord (bit word)))

/-- The full words before the last one, and the last one unless there are no bits in the mask. -/
def scanForward (endMask : ℤ) (lastWord wordIndex : ℕ) : Option (Option ℕ) :=
  if wordIndex < lastWord then do
    let word ← getWord frob vector wordIndex
    if word ≠ 0 then some (some (calcIndex wordIndex (startBit word)))
      else scanForward endMask lastWord (wordIndex + 1)
  else if endMask = 0 then some none
  else do
    let word := logand endMask (← getWord frob vector wordIndex)
    if word = 0 then some none else some (some (calcIndex wordIndex (startBit word)))
termination_by lastWord - wordIndex

/-- The middle chunks down to the leading one. -/
def scanBackward (startMask : ℤ) (firstWord wordIndex : ℕ) : Option (Option ℕ) :=
  if firstWord < wordIndex then do
    let word ← getWord frob vector wordIndex
    if word ≠ 0 then some (some (calcIndex wordIndex (endBit word)))
      else scanBackward startMask firstWord (wordIndex - 1)
  else do
    let word := logand startMask (← getWord frob vector firstWord)
    if word = 0 then some none else some (some (calcIndex firstWord (endBit word)))
termination_by wordIndex

def bitPosFwd (start stop : ℕ) : Option (Option ℕ) :=
  let firstWord := start >>> bitPositionBaseShift
  let lastWord := stop >>> bitPositionBaseShift
  let startMask := computeStartMask start
  let endMask := computeEndMask stop
  if ¬ firstWord < lastWord then oneWord frob vector startBit startMask endMask firstWord
  else do
    let word := logand startMask (← getWord frob vector firstWord)
    if word ≠ 0 then some (some (calcIndex firstWord (startBit word)))
    else scanForward frob vector endMask lastWord (firstWord + 1)

def bitPosRev (start stop : ℕ) : Option (Option ℕ) :=
  let firstWord := start >>> bitPositionBaseShift
  let lastWord := stop >>> bitPositionBaseShift
  let startMask := computeStartMask start
  let endMask := computeEndMask stop
  if ¬ firstWord < lastWord then oneWord frob vector endBit startMask endMask firstWord
  else if endMask = 0 then scanBackward frob vector startMask firstWord (lastWord - 1)
  else do
    let word := logand endMask (← getWord frob vector lastWord)
    if word ≠ 0 then some (some (calcIndex lastWord (endBit word)))
    else scanBackward frob vector startMask firstWord (lastWord - 1)

end Search

/-- `(logandc2 most-positive-word x)` -/
def inverted (x : ℤ) : ℤ := logandc2 (2 ^ nWordBits - 1) x

def bitPosFwd1 (vector : RawBits) (start stop : ℕ) : Option (Option ℕ) :=
  bitPosFwd id vector start stop

def bitPosRev1 (vector : RawBits) (start stop : ℕ) : Option (Option ℕ) :=
  bitPosRev id vector start stop

def bitPosFwd0 (vector : RawBits) (start stop : ℕ) : Option (Option ℕ) :=
  bitPosFwd inverted vector start stop

def bitPosRev0 (vector : RawBits) (start stop : ℕ) : Option (Option ℕ) :=
  bitPosRev inverted vector start stop

end Sbcl.BitPos
