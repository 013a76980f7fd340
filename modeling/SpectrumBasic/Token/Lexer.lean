import SpectrumBasic.Token.Basic

/-! Cutting a statement into tokens. Only spaces, tabs and carriage returns stand between tokens.
At every other place the front of the text is a numeral, else a fixed spelling, else a name, else a
single unknown character. A fixed spelling wins over a longer name, so `TOAST` is the word `TO` and
the name `AST`. A sign belongs to the numeral behind it exactly where an operand is expected. -/

namespace SpectrumBasic.Token

/-! ### Numerals -/

def digits (t : Text) : Text := t.takeWhile Char.isDigit

/-- A point with digits behind it. -/
def fractionPart : Text → Text
  | '.' :: t => if digits t = [] then [] else '.' :: digits t
  | _ => []

/-- The letter `E` in either case, an optional sign, and digits. -/
def exponentPart : Text → Text
  | [] => []
  | c :: t =>
    let sign :=
      match t with
      | '+' :: _ => ['+']
      | '-' :: _ => ['-']
      | _ => []
    let power := digits (t.drop sign.length)
    if (c = 'e' ∨ c = 'E') ∧ power ≠ [] then c :: (sign ++ power) else []

/-- The longest unsigned decimal in front, empty if there is none. -/
def decimalPart (t : Text) : Text :=
  let whole := digits t
  let mantissa := whole ++ fractionPart (t.drop whole.length)
  if mantissa = [] then [] else mantissa ++ exponentPart (t.drop mantissa.length)

/-- The longest numeral in front, empty if there is none. It may begin with a sign only where an
operand is expected. -/
def numeralPart (operand : Bool) (t : Text) : Text :=
  match t with
  | [] => []
  | c :: u =>
    if c = '+' ∨ c = '-' then
      if operand ∧ decimalPart u ≠ [] then c :: decimalPart u else []
    else decimalPart t

/-! ### Lexemes -/

/-- The tokens with one spelling each, a longer spelling before any that it begins with. A minus is
a negation where an operand is expected. -/
def fixedKinds (operand : Bool) : List Kind :=
  [.word .upTo, .word .step, .word .thenDo, .operator .sin, .operator .cos,
    .operator .lessEqual, .operator .notEqual, .operator .greaterEqual,
    .operator .less, .operator .greater, .operator .equal,
    .operator .plus, .operator (if operand then .negate else .minus),
    .operator .multiply, .operator .divide, .operator .leftParen, .operator .rightParen,
    .separator .comma, .separator .semicolon]

/-- The fixed spelling in front, in letters of either case. None has more than four characters. -/
def fixedKind? (operand : Bool) (t : Text) : Option Kind :=
  let front := Text.upper (t.take 4)
  (fixedKinds operand).find? fun k => k.text.toList.isPrefixOf front

/-- Letters with digits behind them, empty if the text does not start with a letter. -/
def namePart (t : Text) : Text :=
  let letters := t.takeWhile Char.isAlpha
  if letters = [] then [] else letters ++ digits (t.drop letters.length)

/-- The first lexeme of the text `c :: t`, and the token it is. -/
def firstLexeme (operand : Bool) (c : Char) (t : Text) : Text × Kind :=
  let numeral := numeralPart operand (c :: t)
  if numeral ≠ [] then (numeral, .number (Text.upper numeral))
  else
    match fixedKind? operand (c :: t) with
    | some kind => ((c :: t).take kind.text.length, kind)
    | none =>
      let name := namePart (c :: t)
      if name ≠ [] then (name, .name (String.ofList (Text.upper name)))
      else ([c], .unknown c)

/-! ### Statements -/

/-- Where in a statement the lexer stands: at its start, behind a leading line number, or further
inside, where an operand may be expected or not. -/
inductive Phase
  | start
  | numbered
  | inside (operand : Bool)
deriving DecidableEq, Repr

/-- Behind a line number comes a command, which is no operand. -/
def Phase.operand : Phase → Bool
  | start => true
  | numbered => false
  | inside operand => operand

/-- The phase behind a token. The first name of a statement is its command, so an operand is
expected behind it; behind any other name, a number or a right parenthesis none is. -/
def Phase.next : Phase → Kind → Phase
  | start, .number _ => numbered
  | inside _, .name _ => inside false
  | _, .name _ => inside true
  | _, .number _ => inside false
  | _, .operator .rightParen => inside false
  | _, _ => inside true

/-- The characters that may stand between tokens. -/
def isGap (c : Char) : Bool := c = ' ' || c = '\t' || c = '\r'

/-- The tokens of a text that begins at byte `offset` of its statement. -/
def scanFrom (phase : Phase) (offset : Nat) : Text → List Token
  | [] => []
  | c :: t =>
    if isGap c then scanFrom phase (offset + c.utf8Size) t
    else
      let (lexeme, kind) := firstLexeme phase.operand c t
      let stop := offset + Text.byteLength lexeme
      ⟨⟨offset, stop⟩, kind⟩ :: scanFrom (phase.next kind) stop (t.drop (lexeme.length - 1))
termination_by t => t.length
decreasing_by
  all_goals
    simp only [List.length_cons, List.length_drop]
    omega

/-- All tokens of a statement, a leading line number included. -/
def scan (statement : Text) : List Token := scanFrom .start 0 statement

/-- The tokens of a statement behind its line number. There are none if the statement is blank or
only a line number. -/
def lex (statement : Text) : List Token :=
  match scan statement with
  | ⟨_, .number _⟩ :: tokens => tokens
  | tokens => tokens

end SpectrumBasic.Token
