import Sbcl.ExternalFormats.Utf8

/-!
# Decoding unibyte formats (code/external-formats/enc-basic.lisp, code/octets.lisp)

* `Replacement`, `DecodingError` : what stands for an octet without a translation, and what is
  signalled there;
* `stringContent`, `unibyteToString` : the loop of the functions of
  `define-unibyte-to-string-functions`, with `invalid-bytes-p`, in the variants of the newline;
* `decodingReplacementStringify`, `decodingError`, `octetsToString` : the replacement, the error,
  and a whole decoding.

A character is its code. Every error that is signalled is continued by `use-value`: a handler that
unwinds ends the run there. The functions return the type error of `=` where the look-ahead has no
number.
-/

namespace Sbcl.Unibyte

open Utf8 (Octet Newline)

/-- What `decoding-replacement-stringify` takes; of octets, with the values that `use-value` gets
for those among them that have no translation, by their index. -/
inductive Replacement
  | character (code : ℕ)
  | string (codes : List ℕ)
  | octets (octets : List Octet) (useValue : ℕ → Replacement)

/-- A decoding error: the variant of the format, the array, and the `:start`, `:end` and `:pos`. -/
structure DecodingError where
  newline : Newline
  array : List Octet
  start : ℕ
  stop : ℕ
  pos : ℕ
deriving DecidableEq

/-- A string, and the errors that were signalled on the way. -/
structure Decoded where
  string : List ℕ
  signalled : List DecodingError
deriving DecidableEq

namespace Decoded

def append (a b : Decoded) : Decoded := ⟨a.string ++ b.string, a.signalled ++ b.signalled⟩

/-- After an error is signalled. -/
def signal (error : DecodingError) (a : Decoded) : Decoded := ⟨a.string, error :: a.signalled⟩

end Decoded

/-- `(= nil 10)`. -/
inductive TypeError
  | notANumber
deriving DecidableEq

section Loop

variable (toCode : Octet → Option ℕ)

def arrayRef (array : List Octet) (i : ℕ) : Octet := array.getD i 0

/-- The binding of `string-content`, and by how much the index is incremented in it. -/
def stringContent (newline : Newline) (decodingError : ℕ → Except TypeError Decoded)
    (array : List Octet) (aend apos : ℕ) : Except TypeError (Decoded × ℕ) :=
  match toCode (arrayRef array apos) with
  | none => (decodingError apos).map fun content => (content, 0)
  | some code =>
    match newline with
    | .lf => .ok (⟨[code], []⟩, 0)
    | .cr => .ok (⟨[if code = 13 then 10 else code], []⟩, 0)
    | .crlf =>
      if code = 13 then
        if apos = aend - 1 then .ok (⟨[13], []⟩, 0)
        else
          match toCode (arrayRef array (apos + 1)) with
          | none => .error .notANumber
          | some nextCode => .ok (if nextCode = 10 then (⟨[10], []⟩, 1) else (⟨[13], []⟩, 0))
      else .ok (⟨[code], []⟩, 0)

/-- The loop, from the index `apos` on. -/
def unibyteToString (newline : Newline) (decodingError : ℕ → Except TypeError Decoded)
    (array : List Octet) (aend apos : ℕ) : Except TypeError Decoded :=
  if aend ≤ apos then .ok ⟨[], []⟩
  else
    match stringContent toCode newline decodingError array aend apos with
    | .error e => .error e
    | .ok (content, incremented) =>
      (unibyteToString newline decodingError array aend (apos + incremented + 1)).map content.append
termination_by aend - apos

/-- `decoding-replacement-stringify`; octets are decoded in the same format, without a replacement.
-/
def decodingReplacementStringify (newline : Newline) : Replacement → Except TypeError Decoded
  | .character code => .ok ⟨[code], []⟩
  | .string codes => .ok ⟨codes, []⟩
  | .octets octets useValue =>
    unibyteToString toCode newline
      (fun pos => (decodingReplacementStringify newline (useValue pos)).map
        (.signal ⟨newline, octets, pos, pos + 1, pos⟩))
      octets octets.length 0

/-- `decoding-error`, at the octet `pos`. -/
def decodingError (newline : Newline) (array : List Octet) (replacement : Option Replacement)
    (useValue : ℕ → Replacement) (pos : ℕ) : Except TypeError Decoded :=
  match replacement with
  | some replacement => decodingReplacementStringify toCode newline replacement
  | none =>
    (decodingReplacementStringify toCode newline (useValue pos)).map (.signal ⟨newline, array,
      pos, pos + 1, pos⟩)

/-- A decoding of the octets between two indices. -/
def octetsToString (newline : Newline) (array : List Octet) (astart aend : ℕ)
    (replacement : Option Replacement) (useValue : ℕ → Replacement) : Except TypeError Decoded :=
  unibyteToString toCode newline (decodingError toCode newline array replacement useValue)
    array aend astart

end Loop

end Sbcl.Unibyte
