import LineScope.Toml.Text
import LineScope.Toml.Value

/-! Numbers. Each function reads a whole word and fails if it is not of its form. -/
namespace LineScope.Toml

inductive Sign where
  | plus
  | minus
  deriving DecidableEq, Repr

def splitSign : List Char → Option Sign × List Char
  | '+' :: body => (some .plus, body)
  | '-' :: body => (some .minus, body)
  | body => (none, body)

def signed (sign : Option Sign) (n : Nat) : Int :=
  if sign = some .minus then -(n : Int) else n

def digitsValue? (base : Nat) (digits : List Char) : Option Nat :=
  if digits.isEmpty then none
  else digits.foldlM (fun n c => do
    let digit ← hexValue? c
    if digit < base then some (base * n + digit) else none) 0

/-- Whether underscores stand between two digits only; `before` says whether a digit comes right
before. -/
def underscoresFit (isDigit : Char → Bool) (before : Bool) : List Char → Bool
  | [] => true
  | c :: cs =>
    if c = '_' then before && cs.head?.any isDigit && underscoresFit isDigit false cs
    else underscoresFit isDigit (isDigit c) cs

def dropUnderscores (word : List Char) : List Char := word.filter (· ≠ '_')

def isHexDigit (c : Char) : Bool := (hexValue? c).isSome

def hasSpareZero : List Char → Bool
  | '0' :: c :: _ => c.isDigit || c = '_'
  | _ => false

/-- An integer in a base other than ten, without its mark. Its digits may be missing, which makes
no number. -/
def basedInteger? (base : Nat) (digits : List Char) : Option (Option Int) :=
  if digits.all (fun c => c = '_' || (hexValue? c).any (· < base))
      && underscoresFit isHexDigit false digits then
    some ((digitsValue? base (dropUnderscores digits)).map Int.ofNat)
  else none

/-- A decimal integer without its sign. Behind an underscore other characters may follow, which make
no number, but not those of a float and no space. -/
def decimalInteger? (sign : Option Sign) (body : List Char) : Option (Option Int) :=
  let rest := body.dropWhile Char.isDigit
  let wellFormed := match rest with
    | [] => !body.isEmpty
    | c :: _ => c = '_' && rest.all fun c => c ≠ '.' && c ≠ 'e' && c ≠ 'E' && c ≠ ' '
  if wellFormed && !hasSpareZero body && underscoresFit isHexDigit false body then
    some ((digitsValue? 10 (dropUnderscores body)).map (signed sign))
  else none

def integer? (word : List Char) : Option (Option Int) :=
  match word with
  | '0' :: 'x' :: digits => basedInteger? 16 digits
  | '0' :: 'o' :: digits => basedInteger? 8 digits
  | '0' :: 'b' :: digits => basedInteger? 2 digits
  | _ => let (sign, body) := splitSign word; decimalInteger? sign body

/-- The exponent behind its mark, which may have zeros in front. -/
def exponent? (word : List Char) : Option Int :=
  let (sign, digits) := splitSign word
  (digitsValue? 10 digits).map (signed sign)

/-- A number with a fraction, an exponent, or both, without its sign and without underscores. -/
def decimalFloat? (word : List Char) : Option FloatLiteral := do
  let isMark (c : Char) : Bool := c = 'e' || c = 'E'
  let mantissa := word.takeWhile fun c => !isMark c
  let exponent ← match word.dropWhile fun c => !isMark c with
    | [] => some 0
    | _ :: power => exponent? power
  match mantissa.dropWhile (· ≠ '.') with
  | [] =>
    if mantissa.length = word.length then none
    else return .decimal (← digitsValue? 10 mantissa) exponent
  | _ :: fraction =>
    let whole ← digitsValue? 10 (mantissa.takeWhile (· ≠ '.'))
    let part ← digitsValue? 10 fraction
    return .decimal (whole * Nat.pow 10 fraction.length + part) (exponent - fraction.length)

def float? (word : List Char) : Option FloatLiteral :=
  let (_, body) := splitSign word
  if body = "inf".toList ∨ body = "nan".toList then some .special
  else if !hasSpareZero body && underscoresFit Char.isDigit false body then
    decimalFloat? (dropUnderscores body)
  else none

/-- The least number that is nearer to infinity than to the largest double. -/
def doubleLimit : Nat := 1 <<< 1024 - 1 <<< 970

/-- Whether a literal is finite but too large for a double. -/
def FloatLiteral.overflows : FloatLiteral → Bool
  | .special => false
  | .decimal digits exponent =>
    let magnitude : Int := (Nat.toDigits 10 digits).length + exponent
    if digits = 0 ∨ magnitude < 300 then false
    else if 310 < magnitude then true
    else if 0 ≤ exponent then doubleLimit ≤ digits * Nat.pow 10 exponent.toNat
    else doubleLimit * Nat.pow 10 (-exponent).toNat ≤ digits

end LineScope.Toml
