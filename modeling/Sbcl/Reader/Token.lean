import Sbcl.Reader.Integer

/-!
# Tokens (code/reader.lisp)

* `CharAttr`, `charSyntax`, `constituentTrait` : the attributes of characters, in the standard
  readtable;
* `charClass`, `charClass2`, `charClass3` : the class of a character in a token, in a rational, in a
  number;
* `enter`, `step`, `atEnd` : the labels of `read-token` before SYMBOL, on a character and at the end
  of the stream;
* `readToken` : where `read-token` goes from them, with the token buffer and the characters that
  remain.
-/

namespace Sbcl.Reader

open Sbcl.Printer

variable (ucdDecimalDigit : ℕ → Option ℕ)

/-! ## Characters -/

/-- `+char-attr-...+`. -/
inductive CharAttr where
  | whitespace | terminatingMacro | singleEscape | multipleEscape
  | constituent | constituentDot | constituentExpt | constituentSlash | constituentDigit | constituentSign
  -- The following two are never in a table.
  | constituentDecimalDigit | constituentDigitOrExpt
  | packageDelimiter | invalid | delimiter
deriving DecidableEq

/-- `char-syntax`, of the standard readtable. -/
def charSyntax (char : Char) : CharAttr :=
  if whitespace1p char then .whitespace
  else if char ∈ ['"', '\'', '(', ')', ',', ';', (Char.ofNat 96)] then .terminatingMacro
  else if char = '\\' then .singleEscape
  else if char = '|' then .multipleEscape
  else .constituent

/-- `get-constituent-trait`. -/
def constituentTrait (char : Char) : CharAttr :=
  if char = ':' then .packageDelimiter
  else if char = '.' then .constituentDot
  else if char = '+' ∨ char = '-' then .constituentSign
  else if char = '/' then .constituentSlash
  else if '0' ≤ char ∧ char ≤ '9' then .constituentDigit
  else if char ∈ ['E', 'F', 'D', 'S', 'L', 'R', 'e', 'f', 'd', 's', 'l', 'r'] then .constituentExpt
  -- Space, newline, backspace, tab, page, return and rubout.
  else if char.toNat ∈ [32, 10, 8, 9, 12, 13, 127] then .invalid
  else .constituent

/-- The control strings of the errors. -/
inductive ReaderError where
  /-- invalid constituent -/
  | invalidConstituent
  /-- invalid constituent: ~s -/
  | invalidConstituentChar (char : Char)
  /-- dot context error -/
  | dotContext
  /-- too many dots -/
  | tooManyDots
deriving DecidableEq

def charClass (char : Char) : Except ReaderError CharAttr :=
  match charSyntax char with
  | .whitespace | .terminatingMacro => .ok .delimiter
  | .singleEscape => .ok .singleEscape
  | .multipleEscape => .ok .multipleEscape
  | _ => if constituentTrait char = .invalid then .error .invalidConstituent
    else .ok (constituentTrait char)

def charClass2 (char : Char) (readBase : Base) : Except ReaderError CharAttr :=
  match charSyntax char with
  | .whitespace | .terminatingMacro => .ok .delimiter
  | .singleEscape => .ok .singleEscape
  | .multipleEscape => .ok .multipleEscape
  | _ =>
    if (digitCharP ucdDecimalDigit char readBase.val).isSome then .ok .constituentDigit
    else if constituentTrait char = .constituentDigit then .ok .constituent
    else if constituentTrait char = .invalid then .error .invalidConstituent
    else .ok (constituentTrait char)

/-- The variables that `char-class3` and the labels set. -/
structure Flags where
  possiblyRational : Bool
  seenDigitOrExpt : Bool
  possiblyFloat : Bool
  wasPossiblyFloat : Bool
deriving DecidableEq

/-- What `char-class3` sets. -/
def classFlags (char : Char) (readBase : Base) (flags : Flags) : Flags :=
  match charSyntax char with
  | .whitespace | .terminatingMacro | .singleEscape | .multipleEscape => flags
  | _ =>
    { flags with
      possiblyRational := flags.possiblyRational &&
        ((digitCharP ucdDecimalDigit char readBase.val).isSome || constituentTrait char =
          .constituentSlash)
      possiblyFloat := flags.possiblyFloat &&
        ((digitCharP ucdDecimalDigit char 10).isSome || constituentTrait char = .constituentDot) }

def charClass3 (char : Char) (readBase : Base) : Except ReaderError CharAttr :=
  match charSyntax char with
  | .whitespace | .terminatingMacro => .ok .delimiter
  | .singleEscape => .ok .singleEscape
  | .multipleEscape => .ok .multipleEscape
  | _ =>
    if (digitCharP ucdDecimalDigit char (max readBase.val 10)).isSome then
      if (digitCharP ucdDecimalDigit char readBase.val).isSome then
        if constituentTrait char = .constituentExpt then .ok .constituentDigitOrExpt
          else .ok .constituentDigit
      else .ok .constituentDecimalDigit
    else if constituentTrait char = .invalid then .error (.invalidConstituentChar char)
    else .ok (constituentTrait char)

/-! ## The labels -/

/-- The labels before SYMBOL. -/
inductive Label where
  | sign | leftDigit | leftDigitOrExpt | leftDecimalDigit | middleDot | rightDigit | signDot | frontDot
  | exponent | exptSign | exptDigit | ratio | ratioDigit | dots
deriving DecidableEq

/-- Where these labels are left to. -/
inductive Outcome where
  | makeInteger (base : ℕ)
  | makeRatio
  | makeFloat
  | symbol
  | returnSymbol
  | singleEscape
  | multEscape
  | colon
  | readerError (error : ReaderError)
  /-- An `aver` that fails, or `(bug "impossible!")`. -/
  | bug
deriving DecidableEq

inductive Step where
  | go (label : Label) (flags : Flags)
  | leave (outcome : Outcome)
deriving DecidableEq

/-- A `case` of the class of a character. -/
def caseClass (cls : Except ReaderError CharAttr) (clauses : CharAttr → Step) : Step :=
  match cls with
  | .error e => .leave (.readerError e)
  | .ok cls => clauses cls

/-- The clauses for the escapes and for the package delimiter, and the last one. -/
def otherwise : CharAttr → Step
  | .singleEscape => .leave .singleEscape
  | .multipleEscape => .leave .multEscape
  | .packageDelimiter => .leave .colon
  | _ => .leave .symbol

variable (base : Base)

/-- The `aver` at the head of the label. -/
def goLeftDecimalDigit (flags : Flags) : Step :=
  if flags.possiblyFloat then .go .leftDecimalDigit flags else .leave .bug

/-- The first character. -/
def enter (char : Char) : Step :=
  let flags := classFlags ucdDecimalDigit char base ⟨true, false, true, false⟩
  caseClass (charClass3 ucdDecimalDigit char base) fun
    | .constituentSign => .go .sign flags
    | .constituentDigit => .go .leftDigit flags
    | .constituentDigitOrExpt => .go .leftDigit { flags with seenDigitOrExpt := true }
    | .constituentDecimalDigit => goLeftDecimalDigit flags
    | .constituentDot => .go .frontDot flags
    | .invalid => .leave (.readerError (.invalidConstituentChar char))
    | cls => otherwise cls

/-- The next character after a label. -/
def step (flags : Flags) (char : Char) : Label → Step
  | .sign =>
    let flags :=
      classFlags ucdDecimalDigit char base
        { flags with possiblyRational := true, possiblyFloat := true }
    caseClass (charClass3 ucdDecimalDigit char base) fun
      | .constituentDigit => .go .leftDigit flags
      | .constituentDigitOrExpt => .go .leftDigit { flags with seenDigitOrExpt := true }
      | .constituentDecimalDigit => goLeftDecimalDigit flags
      | .constituentDot => .go .signDot flags
      | .delimiter => .leave .returnSymbol
      | cls => otherwise cls
  | .leftDigit =>
    let flags :=
      classFlags ucdDecimalDigit char base { flags with wasPossiblyFloat := flags.possiblyFloat }
    caseClass (charClass3 ucdDecimalDigit char base) fun
      | .constituentDigit => .go .leftDigit flags
      | .constituentDecimalDigit => if flags.possiblyFloat then goLeftDecimalDigit flags
        else .leave .symbol
      | .constituentDot => if flags.possiblyFloat then .go .middleDot flags else .leave .symbol
      | .constituentDigitOrExpt =>
        if flags.seenDigitOrExpt || !flags.wasPossiblyFloat then .go .leftDigit
          { flags with seenDigitOrExpt := true }
        else .go .leftDigitOrExpt { flags with seenDigitOrExpt := true }
      | .constituentExpt => if flags.wasPossiblyFloat then .go .exponent flags else .leave .symbol
      | .constituentSlash => if flags.possiblyRational then .go .ratio flags else .leave .symbol
      | .delimiter => .leave (.makeInteger base.val)
      | cls => otherwise cls
  | .leftDigitOrExpt =>
    let flags := classFlags ucdDecimalDigit char base flags
    caseClass (charClass3 ucdDecimalDigit char base) fun
      | .constituentDigit => .go .leftDigit flags
      | .constituentDecimalDigit => .leave .bug
      | .constituentDigitOrExpt => .go .leftDigit flags
      | .constituentSign => .go .exptSign flags
      | .constituentSlash => if flags.possiblyRational then .go .ratio flags else .leave .symbol
      | .delimiter => .leave (.makeInteger base.val)
      | cls => otherwise cls
  | .leftDecimalDigit =>
    caseClass (charClass char) fun
      | .constituentDigit => goLeftDecimalDigit flags
      | .constituentDot => .go .middleDot flags
      | .constituentExpt => .go .exponent flags
      | .constituentSlash => if flags.possiblyRational then .leave .bug else .leave .symbol
      | .delimiter => .leave .returnSymbol
      | cls => otherwise cls
  | .middleDot =>
    caseClass (charClass char) fun
      | .constituentDigit => .go .rightDigit flags
      | .constituentExpt => .go .exponent flags
      | .delimiter => .leave (.makeInteger 10)
      | cls => otherwise cls
  | .rightDigit =>
    caseClass (charClass char) fun
      | .constituentDigit => .go .rightDigit flags
      | .constituentExpt => .go .exponent flags
      | .delimiter => .leave .makeFloat
      | cls => otherwise cls
  | .signDot =>
    caseClass (charClass char) fun
      | .constituentDigit => .go .rightDigit flags
      | .delimiter => .leave .returnSymbol
      -- No clause for the package delimiter here.
      | .packageDelimiter => .leave .symbol
      | cls => otherwise cls
  | .frontDot =>
    caseClass (charClass char) fun
      | .constituentDigit => .go .rightDigit flags
      | .constituentDot => .go .dots flags
      | .delimiter => .leave (.readerError .dotContext)
      | cls => otherwise cls
  | .exponent =>
    let flags := { flags with possiblyFloat := true }
    caseClass (charClass char) fun
      | .constituentSign => .go .exptSign flags
      | .constituentDigit => .go .exptDigit flags
      | .delimiter => .leave .returnSymbol
      | cls => otherwise cls
  | .exptSign =>
    caseClass (charClass char) fun
      | .constituentDigit => .go .exptDigit flags
      | .delimiter => .leave .returnSymbol
      | cls => otherwise cls
  | .exptDigit =>
    caseClass (charClass char) fun
      | .constituentDigit => .go .exptDigit flags
      | .delimiter => .leave .makeFloat
      | cls => otherwise cls
  | .ratio =>
    caseClass (charClass2 ucdDecimalDigit char base) fun
      | .constituentDigit => .go .ratioDigit flags
      | .delimiter => .leave .returnSymbol
      | cls => otherwise cls
  | .ratioDigit =>
    caseClass (charClass2 ucdDecimalDigit char base) fun
      | .constituentDigit => .go .ratioDigit flags
      | .delimiter => .leave .makeRatio
      | cls => otherwise cls
  | .dots =>
    caseClass (charClass char) fun
      | .constituentDot => .go .dots flags
      | .delimiter => .leave (.readerError .tooManyDots)
      | cls => otherwise cls

/-- The end of the stream after a label. -/
def atEnd : Label → Outcome
  | .leftDigit | .leftDigitOrExpt => .makeInteger base.val
  | .middleDot => .makeInteger 10
  | .rightDigit | .exptDigit => .makeFloat
  | .ratioDigit => .makeRatio
  | .frontDot => .readerError .dotContext
  | .dots => .readerError .tooManyDots
  | .sign | .leftDecimalDigit | .signDot | .exponent | .exptSign | .ratio => .returnSymbol

/-- Where the labels are left to, with the token buffer and the characters from the last one read
on. -/
structure Read where
  outcome : Outcome
  buf : List Char
  rest : List Char
deriving DecidableEq

/-- The labels from one on, after the characters of `buf`. -/
def run (label : Label) (flags : Flags) (buf : List Char) : List Char → Read
  | [] => ⟨atEnd base label, buf, []⟩
  | char :: rest =>
    match step ucdDecimalDigit base flags char label with
    | .go label flags => run label flags (buf ++ [char]) rest
    | .leave outcome => ⟨outcome, buf, char :: rest⟩

/-- `read-token` of the first character and of the stream after it, up to SYMBOL. -/
def readToken (firstchar : Char) (stream : List Char) : Read :=
  match enter ucdDecimalDigit base firstchar with
  | .go label flags => run ucdDecimalDigit base label flags [firstchar] stream
  | .leave outcome => ⟨outcome, [], firstchar :: stream⟩

end Sbcl.Reader
