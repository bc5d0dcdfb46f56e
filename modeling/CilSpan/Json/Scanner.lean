import CilSpan.Json.Value

namespace CilSpan.Json

def digitValue (c : Char) : Nat := c.toNat - '0'.toNat

def natValue (digits : List Char) : Nat := digits.foldl (fun n c ↦ 10 * n + digitValue c) 0

/-- The number grown by the digits behind it, as long as it fits into 64 bits, and the digits left
over. -/
def gather (n : Nat) : List Char → Nat × List Char
  | [] => (n, [])
  | c :: cs =>
    let grown := 10 * n + digitValue c
    if grown < UInt64.size then gather grown cs else (n, c :: cs)

structure Scaled where
  digits : Nat
  exponent : Int
deriving DecidableEq, Repr

def exponentOf : List Char → Int
  | _ :: '-' :: digits => -(natValue digits : Int)
  | _ :: '+' :: digits => natValue digits
  | _ :: digits => natValue digits
  | [] => 0

/-- What is kept of a number without sign. Digits of the whole part that are left over count as
zeros, those of the fraction not at all. -/
def Scaled.ofText (text : List Char) : Scaled :=
  let (whole, rest) := text.span Char.isDigit
  let (fraction, rest) :=
    match rest with
    | '.' :: rest => rest.span Char.isDigit
    | rest => ([], rest)
  let (digits, zeros) := gather 0 whole
  let (digits, left) := gather digits fraction
  ⟨digits, zeros.length + exponentOf rest - (fraction.length - left.length : Nat)⟩

def round53 (n : Nat) : Nat :=
  let unit := 1 <<< (n.log2 + 1 - 53)
  let quotient := n / unit
  let rest := n % unit
  if unit < 2 * rest ∨ (2 * rest = unit ∧ quotient % 2 = 1) then (quotient + 1) * unit
  else quotient * unit

def doubleBound : Nat := 1 <<< 1024 - 1 <<< 970

namespace Scaled

/-- Whether the product, rounded once more, is beyond double precision. Up to 308 the power of ten
is in double precision itself. -/
def isHuge (s : Scaled) : Bool :=
  s.digits ≠ 0 &&
    (308 < s.exponent ||
      (0 ≤ s.exponent && doubleBound ≤ round53 s.digits * round53 (Nat.pow 10 s.exponent.toNat)))

end Scaled

def isHuge : List Char → Bool
  | '-' :: text => (Scaled.ofText text).isHuge
  | text => (Scaled.ofText text).isHuge

inductive Token
  | openArr
  | closeArr
  | openObj
  | closeObj
  | comma
  | colon
  | null
  | bool (b : Bool)
  | int (n : Int)
  | decimal (text : String)
  | str (s : String)
  | huge
  | garbled
deriving DecidableEq, Repr

/-- How far a number has come. It may end after a zero, a whole part, a fraction or the digits of
an exponent. -/
inductive NumberPart
  | sign
  | zero
  | whole
  | point
  | fraction
  | mark
  | markSign
  | exponent
deriving DecidableEq, Repr

/-- What is being read. `done` holds the characters so far, newest first. -/
inductive Mode
  | idle
  | word (left : List Char) (token : Token)
  | number (part : NumberPart) (done : List Char)
  | text (done : List Char)
  | escape (done : List Char)
  /-- Inside `\u`: the high half of a pair if there was one, digits still to come, value so far. -/
  | unit (done : List Char) (high : Option Nat) (left : Nat) (value : Nat)
  | pair (done : List Char) (high : Nat) (slash : Bool)
  | garbled
  | garbledEscape
  | garbledUnit (left : Nat)
deriving DecidableEq, Repr

def hexValue? (c : Char) : Option Nat :=
  if '0' ≤ c ∧ c ≤ '9' then some (c.toNat - '0'.toNat)
  else if 'a' ≤ c ∧ c ≤ 'f' then some (c.toNat - 'a'.toNat + 10)
  else if 'A' ≤ c ∧ c ≤ 'F' then some (c.toNat - 'A'.toNat + 10)
  else none

def wholeToken (text : List Char) : Token :=
  if isHuge text then .huge
  else
    match text with
    | ['-', '0'] => .decimal "-0"
    | '-' :: digits => .int (-natValue digits)
    | digits => .int (natValue digits)

def decimalToken (text : List Char) : Token :=
  if isHuge text then .huge else .decimal (String.ofList text)

def numberToken? (part : NumberPart) (done : List Char) : Option Token :=
  match part with
  | .zero | .whole => some (wholeToken done.reverse)
  | .fraction | .exponent => some (decimalToken done.reverse)
  | _ => none

def NumberPart.next? (part : NumberPart) (c : Char) : Option NumberPart :=
  match part with
  | .sign => if c = '0' then some .zero else if c.isDigit then some .whole else none
  | .zero => if c = '.' then some .point else if c = 'e' ∨ c = 'E' then some .mark else none
  | .whole =>
    if c.isDigit then some .whole
    else if c = '.' then some .point
    else if c = 'e' ∨ c = 'E' then some .mark
    else none
  | .point => if c.isDigit then some .fraction else none
  | .fraction =>
    if c.isDigit then some .fraction else if c = 'e' ∨ c = 'E' then some .mark else none
  | .mark =>
    if c.isDigit then some .exponent else if c = '+' ∨ c = '-' then some .markSign else none
  | .markSign | .exponent => if c.isDigit then some .exponent else none

def isBlank (c : Char) : Bool := c = ' ' ∨ c = '\t' ∨ c = '\n' ∨ c = '\r'

def start (c : Char) : Option (List Token × Mode) :=
  if isBlank c then some ([], .idle)
  else match c with
  | '[' => some ([.openArr], .idle)
  | ']' => some ([.closeArr], .idle)
  | '\x7b' => some ([.openObj], .idle)
  | '\x7d' => some ([.closeObj], .idle)
  | ',' => some ([.comma], .idle)
  | ':' => some ([.colon], .idle)
  | '"' => some ([], .text [])
  | 'n' => some ([], .word ['u', 'l', 'l'] .null)
  | 't' => some ([], .word ['r', 'u', 'e'] (.bool true))
  | 'f' => some ([], .word ['a', 'l', 's', 'e'] (.bool false))
  | '-' => some ([], .number .sign ['-'])
  | '0' => some ([], .number .zero ['0'])
  | c => if c.isDigit then some ([], .number .whole [c]) else none

def escaped? (c : Char) : Option Char :=
  match c with
  | '"' => some '"'
  | '\\' => some '\\'
  | '/' => some '/'
  | 'b' => some '\x08'
  | 'f' => some '\x0c'
  | 'n' => some '\n'
  | 'r' => some '\r'
  | 't' => some '\t'
  | _ => none

def isHigh (n : Nat) : Bool := 0xd800 ≤ n && n < 0xdc00
def isLow (n : Nat) : Bool := 0xdc00 ≤ n && n < 0xe000

def endUnit (done : List Char) (high : Option Nat) (value : Nat) : Mode :=
  match high with
  | none =>
    if isHigh value then .pair done value false
    else if isLow value then .garbled
    else .text (Char.ofNat value :: done)
  | some h =>
    if isLow value then
      .text (Char.ofNat (0x10000 + (h - 0xd800) * 0x400 + (value - 0xdc00)) :: done)
    else .garbled

def garbledStep (c : Char) : Option (List Token × Mode) :=
  if c = '"' then some ([.garbled], .idle)
  else if c = '\\' then some ([], .garbledEscape)
  else if c.toNat < 0x20 then none
  else some ([], .garbled)

def garbledEscapeStep (c : Char) : Option (List Token × Mode) :=
  if c = 'u' then some ([], .garbledUnit 4) else (escaped? c).map fun _ ↦ ([], .garbled)

def step (mode : Mode) (c : Char) : Option (List Token × Mode) :=
  match mode with
  | .idle => start c
  | .word left token =>
    match left with
    | [last] => if c = last then some ([token], .idle) else none
    | next :: left => if c = next then some ([], .word left token) else none
    | [] => none
  | .number part done =>
    match part.next? c with
    | some part => some ([], .number part (c :: done))
    | none => do
      let token ← numberToken? part done
      let (tokens, mode) ← start c
      return (token :: tokens, mode)
  | .text done =>
    if c = '"' then some ([.str (String.ofList done.reverse)], .idle)
    else if c = '\\' then some ([], .escape done)
    else if c.toNat < 0x20 then none
    else some ([], .text (c :: done))
  | .escape done =>
    if c = 'u' then some ([], .unit done none 4 0)
    else (escaped? c).map fun e ↦ ([], .text (e :: done))
  | .unit done high left value => do
    let digit ← hexValue? c
    let value := 16 * value + digit
    return ([], if left = 1 then endUnit done high value else .unit done high (left - 1) value)
  | .pair done high false => if c = '\\' then some ([], .pair done high true) else garbledStep c
  | .pair done high true =>
    if c = 'u' then some ([], .unit done (some high) 4 0) else garbledEscapeStep c
  | .garbled => garbledStep c
  | .garbledEscape => garbledEscapeStep c
  | .garbledUnit left => do
    let _ ← hexValue? c
    return ([], if left = 1 then .garbled else .garbledUnit (left - 1))

def finish (mode : Mode) : Option (List Token) :=
  match mode with
  | .idle => some []
  | .number part done => (numberToken? part done).map ([·])
  | _ => none

def scanFrom (found : List Token) (mode : Mode) : List Char → Option (List Token)
  | [] => (finish mode).map fun tokens ↦ found.reverse ++ tokens
  | c :: cs =>
    match step mode c with
    | some (tokens, mode) => scanFrom (tokens.reverse ++ found) mode cs
    | none => none

def tokens? (text : List Char) : Option (List Token) := scanFrom [] .idle text

end CilSpan.Json
