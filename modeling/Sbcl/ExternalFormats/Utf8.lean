import Mathlib.Data.Nat.Bitwise
import Sbcl.Lib.ByteSpec

/-!
# UTF-8 (code/external-formats/enc-basic.lisp)

* `stringToUtf8` : `string->utf8` and its variants for carriage returns;
* `bytesPerUtf8Character` : how many octets the next character has, or those of a malformed prefix;
* `utf8ToString` : `utf8->string` and its variants.

A character is its code. Nothing is returned where the code would read an octet at or after the end,
store one after the end of its array, make a character from a code above the limit, or fall through
an `ecase`.
-/

namespace Sbcl.Utf8

abbrev Octet := Fin 256

/-- The variants of the newline: `:lf`, `:cr`, `:crlf`. -/
inductive Newline where
  | lf
  | cr
  | crlf
  deriving DecidableEq

def charCodeLimit : ℕ := 0x110000

/-- `(ldb (byte size position) x)`. -/
def ldb (size position x : ℕ) : ℕ := x >>> position % 2 ^ size

def codeChar (code : ℕ) : Option ℕ := if code < charCodeLimit then some code else none

/-! ## To UTF-8 -/

def charLenAsUtf8 (code : ℕ) : ℕ :=
  if code < 0x80 then 1 else if code < 0x800 then 2 else if code < 0x10000 then 3 else 4

def octet (x : ℕ) : Octet := Fin.ofNat 256 x

/-- The octets of a code in a string without other codes than those of one octet. -/
def asciiOctets (newline : Newline) (code : ℕ) : List Octet :=
  match newline with
  | .lf => [octet code]
  | .cr => [octet (if code = 10 then 13 else code)]
  | .crlf => octet (if code = 10 then 13 else code) :: if code = 10 then [octet 10] else []

/-- `output-code`: nothing for a surrogate. -/
def outputCode (newline : Newline) (code : ℕ) : Option (List Octet) :=
  match charLenAsUtf8 code with
  | 1 => some (asciiOctets newline code)
  | 2 => some [octet (0xc0 ||| ldb 5 6 code), octet (0x80 ||| ldb 6 0 code)]
  | 3 =>
    if 0xd800 ≤ code ∧ code ≤ 0xdfff then none
    else some [octet (0xe0 ||| ldb 4 12 code), octet (0x80 ||| ldb 6 6 code),
      octet (0x80 ||| ldb 6 0 code)]
  | _ =>
    some [octet (0xf0 ||| ldb 3 18 code), octet (0x80 ||| ldb 6 12 code),
      octet (0x80 ||| ldb 6 6 code), octet (0x80 ||| ldb 6 0 code)]

/-- An array of zeros with the octets stored from its start on. -/
def fillArray (size : ℕ) (octets : List Octet) : Option (List Octet) :=
  if octets.length ≤ size then some (octets ++ List.replicate (size - octets.length) 0) else none

def newlineCount (string : List ℕ) : ℕ := string.countP (· = 10)

/-- The codes before the first error, and the rest. -/
def outputCodes (newline : Newline) : List ℕ → List Octet × Option (List ℕ)
  | [] => ([], none)
  | code :: codes =>
    match outputCode newline code with
    | none => ([], some codes)
    | some octets => ((octets ++ (outputCodes newline codes).1), (outputCodes newline codes).2)

/-- The loop from the first error on, where every error is replaced. -/
def outputCodesReplacing (newline : Newline) (replacement : List Octet) : List ℕ → List Octet
  | [] => []
  | code :: codes => (outputCode newline code).getD replacement ++
    outputCodesReplacing newline replacement codes

/-- `string->utf8` and so on. `encodingError` is the replacement for an error at an index, and
`base` says whether the string is a base string. -/
def stringToUtf8 (newline : Newline) (encodingError : ℕ → List Octet) (base : Bool)
    (string : List ℕ) (nullPadding : ℕ) : Option (List Octet) :=
  let utf8Length := (string.map charLenAsUtf8).sum
  let extra := if newline = .crlf then newlineCount string else 0
  if base then fillArray (nullPadding + (string.length + extra))
    (string.flatMap (asciiOctets newline))
  else if utf8Length = string.length then
    fillArray (nullPadding + (extra + utf8Length)) (string.flatMap (asciiOctets newline))
  else
    match outputCodes newline string with
    | (octets, none) => fillArray (nullPadding + utf8Length + extra) octets
    | (octets, some codes) =>
      let replacement := encodingError octets.length
      some (octets ++ replacement ++ outputCodesReplacing newline replacement codes ++
        if nullPadding = 0 then [] else [0])

/-! ## From UTF-8 -/

inductive RejectReason where
  | invalidUtf8StarterByte
  | endOfInputInCharacter
  | invalidUtf8ContinuationByte
  | characterOutOfRange

/-- `reject-reason` and `reject-position`. -/
structure Reject where
  reason : Option RejectReason
  position : ℕ

/-- The accessor. -/
def ref (array : List Octet) (last pos : ℕ) : Option Octet :=
  if pos < last then array[pos]? else none

def validUtf8StarterByteP (b : Octet) : Option ℕ :=
  let b := b.val
  if b &&& 0b10000000 = 0 then some 1
  else if b &&& 0b11100000 = 0b11000000 ∧ b ≥ 0xc2 then some 2
  else if b &&& 0b11110000 = 0b11100000 then some 3
  else if b &&& 0b11111000 = 0b11110000 ∧ b ≤ 0xf4 then some 4
  else none

/-- `(valid-secondary-p x)` of the octet `b`. -/
def validSecondaryP (initialByte b : Octet) (x : ℕ) : Bool :=
  if b.val &&& 0b11000000 = 0b10000000 then
    if x = 1 then
      if initialByte = 0xe0 then b ≥ 0xa0
      else if initialByte = 0xed then b < 0xa0
      else if initialByte = 0xf0 then b ≥ 0x90
      else if initialByte = 0xf4 then b < 0x90
      else true
    else true
  else false

section Decoder
variable (array : List Octet) (pos last : ℕ)

/-- The loop over `n` secondary octets from the one at `x` on: the first one that is not valid. -/
def invalidSecondary (initialByte : Octet) : ℕ → ℕ → Option (Option ℕ)
  | 0, _ => some none
  | n + 1, x => do
      let b ← ref array last (pos + x)
      if validSecondaryP initialByte b x then invalidSecondary initialByte n (x + 1)
        else some (some (pos + x))

def preliminaryOkForLength (initialByte : Octet) (maybeLen : Option ℕ) (len : ℕ) (reject : Reject) :
    Option (Bool × Reject) :=
  if maybeLen = some len then do
    match ← invalidSecondary array pos last initialByte (min len (last - pos) - 1) 1 with
    | some idx => some (false, ⟨some .invalidUtf8ContinuationByte, idx⟩)
    | none =>
      if last > pos + (len - 1) then some (true, reject)
      else some (false, { reject with reason := some .endOfInputInCharacter })
  else some (false, reject)

/-- `(string->utf8 (string (code-char (1- char-code-limit))) ...)`. -/
def lexicallyMax : List Octet := (outputCode .lf (charCodeLimit - 1)).getD []

/-- The comparison of octets with the rest of `lexically-max`, from the one at `x` on. -/
def belowLimit : List Octet → ℕ → Option Bool
  | [], _ => some true
  | m :: ms, x => do
      let b ← ref array last (pos + x)
      if m < b then some false else if m > b then some true else belowLimit ms (x + 1)

/-- `bytes-per-utf8-character` and `bytes-per-utf8-character/crlf`: the number of octets, and for
malformed ones where they end. -/
def bytesPerUtf8Character (crlfp : Bool) : Option (ℕ × Option ℕ) := do
  let initialByte ← ref array last pos
  let remainingBytes := last - pos
  let maybeLen := validUtf8StarterByteP initialByte
  let reject : Reject := ⟨if maybeLen.isNone then some .invalidUtf8StarterByte else none, pos⟩
  if crlfp = true ∧ initialByte = 13 then
    if remainingBytes > 1 then
      let b ← ref array last (pos + 1)
      some (if b = 10 then 2 else 1, none)
    else some (1, none)
  else if maybeLen = some 1 then some (1, none)
  else do
    let (ok2, reject) ← preliminaryOkForLength array pos last initialByte maybeLen 2 reject
    if ok2 then some (2, none)
    else do
      let (ok3, reject) ← preliminaryOkForLength array pos last initialByte maybeLen 3 reject
      if ok3 then some (3, none)
      else do
        let (ok4, reject) ← preliminaryOkForLength array pos last initialByte maybeLen 4 reject
        let below ← if ok4 then belowLimit array pos last lexicallyMax 0 else some false
        if below then some (4, none)
        else do
          let reason := if ok4 then some .characterOutOfRange else reject.reason
          let badEnd ← match reason with
            | some .invalidUtf8StarterByte => some (pos + 1)
            | some .endOfInputInCharacter => some last
            | some .invalidUtf8ContinuationByte => some reject.position
            | some .characterOutOfRange => maybeLen.map (pos + ·)
            | none => none
          some (badEnd - pos, some badEnd)

/-- `simple-get-utf8-char` and its variants. -/
def simpleGetUtf8Char (newline : Newline) (bytes : ℕ) : Option ℕ := do
  let cref (x : ℕ) : Option ℕ := (ref array last (pos + x)).map Fin.val
  match bytes with
  | 1 => do
      let code ← cref 0
      codeChar (if newline = .cr ∧ code = 13 then 10 else code)
  | 2 => do
      let code ← cref 0
      if newline = .crlf ∧ code = 13 then codeChar 10
      else do
        let b ← cref 1
        codeChar (ldb 5 0 code <<< 6 ||| ldb 6 0 b)
  | 3 => do
      let a ← cref 0
      let b ← cref 1
      let c ← cref 2
      codeChar (ldb 4 0 a <<< 12 ||| ldb 6 0 b <<< 6 ||| ldb 6 0 c)
  | 4 => do
      let a ← cref 0
      let b ← cref 1
      let c ← cref 2
      let d ← cref 3
      codeChar (ldb 3 0 a <<< 18 ||| ldb 6 0 b <<< 12 ||| ldb 6 0 c <<< 6 ||| ldb 6 0 d)
  | _ => none

end Decoder

/-- The string that is decoded and the malformed octets, from where to where, for which
`decoding-error` was called. -/
structure Decoded where
  string : List ℕ
  errors : List (ℕ × ℕ)
  deriving DecidableEq

/-- `utf8->string` and so on, where `decodingError` is the replacement for malformed octets. A step
over no octets would not end. -/
def utf8ToString (newline : Newline) (decodingError : ℕ → ℕ → List ℕ) (array : List Octet)
    (pos aend : ℕ) : Option Decoded :=
  if pos < aend then
    match bytesPerUtf8Character array pos aend (newline = .crlf) with
    | none => none
    | some (bytes, invalid) =>
      if 0 < bytes then do
        let string ← match invalid with
          | none => (simpleGetUtf8Char array pos aend newline bytes).map ([·])
          | some badEnd => some (decodingError pos badEnd)
        let rest ← utf8ToString newline decodingError array (pos + bytes) aend
        some ⟨string ++ rest.string,
          (invalid.map fun badEnd => (pos, badEnd)).toList ++ rest.errors⟩
      else none
  else some ⟨[], []⟩
termination_by aend - pos

end Sbcl.Utf8
