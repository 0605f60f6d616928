import Sbcl.ExternalFormats.Utf8
import Sbcl.Lib.Segments

/-!
# UTF-8 with encoding errors (code/external-formats/enc-basic.lisp, code/octets.lisp)

* `EncodingError`, `encodingError` : what `encoding-error` signals, and the octets it returns;
* `outputLoop`, `errorLoop` : the loop over the characters at `:no-error`, and the one at `:error`,
  which enters itself again for each further surrogate;
* `encodeUtf8` : `string->utf8` and its variants for a part of a string.

The octets of a replacement are those that `encoding-replacement-octetify` makes of it: for a
character or a string they come from a call of these functions on another string.
-/

namespace Sbcl.Utf8

open Segments

/-- A simple string: of characters, or of base characters. -/
inductive SimpleString
  | character (codes : List ℕ)
  | base (codes : List (Fin 128))

namespace SimpleString

def codes : SimpleString → List ℕ
  | character codes => codes
  | base codes => codes.map Fin.val

end SimpleString

/-- An `octets-encoding-error`: the format, the string and the position that it carries. The last
field is not among its slots: it is the variable `error-position` of the function where it is
signalled. -/
structure EncodingError where
  newline : Newline
  string : List ℕ
  position : ℕ
  errorPosition : ℕ
deriving DecidableEq

/-- The octets, if the call returns, and the errors that it has signalled. -/
structure Encoded where
  octets : Option (List Octet)
  signalled : List EncodingError
deriving DecidableEq

section Loops

variable (newline : Newline) (string : List ℕ)

/-- `encoding-error`: the replacement; or the error is signalled, and `use-value` is called with a
value or the handler unwinds. `useValue` is asked by how many errors were signalled before. -/
def encodingError (replacement : Option (List Octet)) (useValue : ℕ → Option (List Octet))
    (count pos errorPosition : ℕ) : Option (List Octet) × List EncodingError :=
  match replacement with
  | some replacement => (some replacement, [])
  | none => (useValue count, [⟨newline, string, pos, errorPosition⟩])

variable (send : ℕ)

/-- The loop with `output-code` in it: the octets so far, and the position of a surrogate where the
loop is left. -/
def outputLoop (octets : List Octet) (i : ℕ) : List Octet × Option ℕ :=
  if send ≤ i then (octets, none)
  else
    match outputCode newline (string.getD i 0) with
    | none => (octets, some i)
    | some more => outputLoop (octets ++ more) (i + 1)
termination_by send - i

theorem outputLoop_bounds {octets newOctets : List Octet} {i position : ℕ}
    (h : outputLoop newline string send octets i = (newOctets, some position)) : i ≤ position ∧
    position < send := by
  fun_induction outputLoop newline string send octets i with
  | case1 octets i hle => exact absurd (congrArg Prod.snd h) (by simp)
  | case2 octets i hlt hnone =>
    obtain rfl := Option.some.inj (congrArg Prod.snd h)
    exact ⟨Nat.le_refl i, by omega⟩
  | case3 octets i hlt more hmore ih =>
    obtain ⟨hle, hlt⟩ := ih h
    exact ⟨by omega, hlt⟩

variable (nullPadding : Bool) (replacement : Option (List Octet))
    (useValue : ℕ → Option (List Octet)) (index : ℕ)

/-- From `:error` on, for the surrogate at `errorPosition`; `index` is what the first loop has left
in that variable. -/
def errorLoop (newArray : List Octet) (count errorPosition : ℕ) : Encoded :=
  match encodingError newline string replacement useValue count index errorPosition with
  | (none, signalled) => ⟨none, signalled⟩
  | (some octets, signalled) =>
    match h : outputLoop newline string send (newArray ++ octets) (errorPosition + 1) with
    | (newArray, none) => ⟨some (if nullPadding then newArray ++ [0] else newArray), signalled⟩
    | (newArray, some position) =>
      let rest := errorLoop newArray (count + 1) position
      ⟨rest.octets, signalled ++ rest.signalled⟩
termination_by send - errorPosition
decreasing_by
  have := outputLoop_bounds newline string send h
  omega

end Loops

/-- `string->utf8`, `string/cr->utf8` and `string/crlf->utf8`; nothing where an octet would be
stored behind the array. -/
def encodeUtf8 (newline : Newline) (string : SimpleString) (sstart send : ℕ) (nullPadding : Bool)
    (replacement : Option (List Octet)) (useValue : ℕ → Option (List Octet)) : Option Encoded :=
  let part := segment string.codes sstart send
  let padding := nullPadding.toNat
  let extra := if newline = .crlf then newlineCount part else 0
  match string with
  | .base _ =>
    (fillArray (padding + (send - sstart + extra)) (part.flatMap (asciiOctets newline))).map
      fun octets =>
    ⟨some octets, []⟩
  | .character codes =>
    let utf8Length := (part.map charLenAsUtf8).sum
    if utf8Length = send - sstart then
      (fillArray (padding + (extra + utf8Length)) (part.flatMap (asciiOctets newline))).map
        fun octets =>
        ⟨some octets, []⟩
    else
      match outputLoop newline codes send [] sstart with
      | (octets, none) => (fillArray (padding + utf8Length + extra) octets).map fun array =>
        ⟨some array, []⟩
      | (octets, some errorPosition) =>
        (fillArray (padding + utf8Length + extra) octets).map fun array =>
          errorLoop newline codes send nullPadding replacement useValue octets.length
            (array.take octets.length) 0 errorPosition

end Sbcl.Utf8
