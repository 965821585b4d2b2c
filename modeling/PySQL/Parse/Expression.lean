import PySQL.Parse.Parser
import PySQL.Query.Value

/-!
# Parsing expressions

The methods from `_parse_expression` down to `_parse_cast_expr`.  Each takes the method for a whole
expression as an argument; `parseExpression` ties the knot.  `fuel` bounds every loop and every
recursion, and `select` is `_parse_select`, whose result the trees leave out.
-/

namespace PySQL.Parse

open Query

def aggregateNames : List String := ["COUNT", "SUM", "AVG", "MIN", "MAX"]

/-- `FunctionCall.__post_init__` -/
def functionCall (py : Py) (name : String) (args : List Expr) (distinct : Bool)
    (isAggregate : Bool := false) : Expr :=
  .functionCall name args distinct (isAggregate || decide (py.upper name ∈ aggregateNames))

section Primary

variable (py : Py) (select : ParserM Unit) (expression : ParserM Expr) (fuel : ℕ)

def parseExpressionListFrom : ℕ → ParserM (List Expr)
  | 0 => throw .outOfFuel
  | n + 1 => do
    let expr ← expression
    if ← matchToken [.comma] then
      let rest ← parseExpressionListFrom n
      return expr :: rest
    return [expr]

def parseExpressionList : ParserM (List Expr) := parseExpressionListFrom expression fuel

/-- What stands between the parentheses of an aggregate function. -/
def parseAggregateArgs : ParserM (List Expr × Bool) := do
  if ← check [.star] then
    let _ ← advance
    return ([.starExpr none], false)
  let distinct ← matchToken [.kwDistinct]
  if ← check [.rparen] then return ([], distinct)
  let args ← parseExpressionList expression fuel
  return (args, distinct)

def parseAggregateFunction : ParserM Expr := do
  let name ← advanceValue
  let _ ← expect .lparen
  let args ← parseAggregateArgs expression fuel
  let _ ← expect .rparen
  return functionCall py name args.1 args.2 true

/-- What stands between the parentheses of another function. -/
def parseCallArgs : ParserM (List Expr × Bool) := do
  if ← check [.rparen] then return ([], false)
  let distinct ← matchToken [.kwDistinct]
  let args ← parseExpressionList expression fuel
  return (args, distinct)

/-- An identifier: a function call, a qualified column or a column. -/
def parseIdentifier : ParserM Expr := do
  let name ← advanceValue
  if ← matchToken [.lparen] then
    let args ← parseCallArgs expression fuel
    let _ ← expect .rparen
    return functionCall py name args.1 args.2
  if ← matchToken [.dot] then
    let column ← advanceValue
    return .columnRef (some name) column
  return .columnRef none name

def parseWhenClauses : ℕ → ParserM (List (Expr × Expr))
  | 0 => throw .outOfFuel
  | n + 1 => do
    if ← matchToken [.kwWhen] then
      let condition ← expression
      let _ ← expect .kwThen
      let result ← expression
      let rest ← parseWhenClauses n
      return (condition, result) :: rest
    return []

/-- The operand of a simple CASE. -/
def parseCaseOperand : ParserM (Option Expr) := do
  if ← check [.kwWhen] then return none
  let operand ← expression
  return some operand

def parseElse : ParserM (Option Expr) := do
  if ← matchToken [.kwElse] then
    let elseClause ← expression
    return some elseClause
  return none

def parseCaseExpr : ParserM Expr := do
  let operand ← parseCaseOperand expression
  let whenClauses ← parseWhenClauses expression fuel
  let elseClause ← parseElse expression
  let _ ← expect .kwEnd
  return .caseExpr operand whenClauses elseClause

/-- A type name, with a parameter such as the one of VARCHAR(100). -/
def parseTargetType : ParserM String := do
  let type ← advanceValue
  if ← matchToken [.lparen] then
    let param ← expect .integerLiteral
    let _ ← expect .rparen
    return type ++ "(" ++ param.value ++ ")"
  return type

def parseCastExpr : ParserM Expr := do
  let _ ← expect .lparen
  let expr ← expression
  let _ ← expect .kwAs
  let targetType ← parseTargetType
  let _ ← expect .rparen
  return .castExpr expr targetType

/-- What follows an opening parenthesis. -/
def parseParenthesized : ParserM Expr := do
  if ← check [.kwSelect] then
    select
    let _ ← expect .rparen
    return .subqueryExpr
  let expr ← expression
  let _ ← expect .rparen
  return expr

def parseExists : ParserM Expr := do
  let _ ← expect .lparen
  select
  let _ ← expect .rparen
  return .existsExpr

/-- `int(token.value)` and `float(token.value)`: a text that is no number raises. -/
def literal : Option Value → ParserM Expr
  | some value => return .literal value
  | none => throw .valueError

def parsePrimary : ParserM Expr := do
  let token ← current
  match token.type with
  | .nullLiteral => do
    let _ ← advance
    return .literal .null
  | .booleanLiteral => do
    let _ ← advance
    return .literal (.bool (token.value = "TRUE"))
  | .integerLiteral => do
    let _ ← advance
    literal ((py.parseInt (.str token.value)).map .int)
  | .floatLiteral => do
    let _ ← advance
    literal ((py.parseFloat (.str token.value)).map .float)
  | .stringLiteral => do
    let _ ← advance
    return .literal (.str token.value)
  | .kwCase => do
    let _ ← advance
    parseCaseExpr expression fuel
  | .kwCast => do
    let _ ← advance
    parseCastExpr expression
  | .kwExists => do
    let _ ← advance
    parseExists select
  | .kwCount | .kwSum | .kwAvg | .kwMin | .kwMax => parseAggregateFunction py expression fuel
  | .lparen => do
    let _ ← advance
    parseParenthesized select expression
  | .identifier | .quotedIdentifier => parseIdentifier py expression fuel
  | .star => do
    let _ ← advance
    return .starExpr none
  | _ => throw (.parseError ("Unexpected token in expression: " ++ token.value) token)

end Primary

section Operators

/-- `while` an operator of the table follows: the operand after it, to the right of what was
read. -/
def binaryLoop (op : TokenType → Option BinaryOpType) (operand : ParserM Expr) :
    ℕ → Expr → ParserM Expr
  | 0, _ => throw .outOfFuel
  | n + 1, left => do
    match op (← currentType) with
    | some o => do
      let _ ← advance
      let right ← operand
      binaryLoop op operand n (.binaryOp o left right)
    | none => return left

/-- Prefix operators, as many as stand there, in front of a tighter expression. -/
def unaryLoop (type : TokenType) (op : UnaryOpType) (tighter : ParserM Expr) : ℕ → ParserM Expr
  | 0 => throw .outOfFuel
  | n + 1 => do
    if ← matchToken [type] then
      let operand ← unaryLoop type op tighter n
      return .unaryOp op operand
    tighter

def orOp : TokenType → Option BinaryOpType
  | .kwOr => some .or
  | _ => none

def andOp : TokenType → Option BinaryOpType
  | .kwAnd => some .and
  | _ => none

/-- The table `op_map` of `_parse_comparison`. -/
def comparisonOp : TokenType → Option BinaryOpType
  | .equals => some .eq
  | .notEquals => some .neq
  | .less => some .lt
  | .greater => some .gt
  | .lessEquals => some .lte
  | .greaterEquals => some .gte
  | _ => none

def additionOp : TokenType → Option BinaryOpType
  | .plus => some .add
  | .minus => some .sub
  | .concat => some .concat
  | _ => none

def multiplicationOp : TokenType → Option BinaryOpType
  | .star => some .mul
  | .slash => some .div
  | .percent => some .mod
  | _ => none

variable (py : Py) (select : ParserM Unit) (expression : ParserM Expr) (fuel : ℕ)

def parseUnary : ParserM Expr :=
  unaryLoop .minus .negate (parsePrimary py select expression fuel) fuel

def parseMultiplication : ParserM Expr := do
  let left ← parseUnary py select expression fuel
  binaryLoop multiplicationOp (parseUnary py select expression fuel) fuel left

def parseAddition : ParserM Expr := do
  let left ← parseMultiplication py select expression fuel
  binaryLoop additionOp (parseMultiplication py select expression fuel) fuel left

/-- Whether NOT stands in front of BETWEEN, IN or LIKE; it is then consumed. -/
def matchNegation : ParserM Bool := do
  if ← check [.kwNot] then
    let nextTok ← peek 1
    if nextTok.type ∈ [.kwBetween, .kwIn, .kwLike] then
      let _ ← advance
      return true
  return false

/-- After BETWEEN. -/
def parseBetween (left : Expr) (negated : Bool) : ParserM Expr := do
  let low ← parseAddition py select expression fuel
  let _ ← expect .kwAnd
  let high ← parseAddition py select expression fuel
  return .betweenExpr left low high negated

/-- After IN; with a subquery there are no values. -/
def parseIn (left : Expr) (negated : Bool) : ParserM Expr := do
  let _ ← expect .lparen
  if ← check [.kwSelect] then
    select
    let _ ← expect .rparen
    return .inExpr left [] negated
  let values ← parseExpressionList expression fuel
  let _ ← expect .rparen
  return .inExpr left values negated

/-- After IS. -/
def parseIs (left : Expr) : ParserM Expr := do
  let negated ← matchToken [.kwNot]
  let _ ← expect .nullLiteral "Expected NULL after IS"
  return .isNullExpr left negated

/-- What may follow the left side of a comparison. -/
def parseComparisonTail (left : Expr) : ParserM Expr := do
  if ← matchToken [.kwIs] then
    return ← parseIs left
  let negated ← matchNegation
  if ← matchToken [.kwBetween] then
    return ← parseBetween py select expression fuel left negated
  if ← matchToken [.kwIn] then
    return ← parseIn select expression fuel left negated
  if ← matchToken [.kwLike] then
    let pattern ← parseAddition py select expression fuel
    return .likeExpr left pattern negated
  match comparisonOp (← currentType) with
  | some op => do
    let _ ← advance
    let right ← parseAddition py select expression fuel
    return .binaryOp op left right
  | none => return left

def parseComparison : ParserM Expr := do
  let left ← parseAddition py select expression fuel
  parseComparisonTail py select expression fuel left

def parseNotExpr : ParserM Expr :=
  unaryLoop .kwNot .not (parseComparison py select expression fuel) fuel

def parseAndExpr : ParserM Expr := do
  let left ← parseNotExpr py select expression fuel
  binaryLoop andOp (parseNotExpr py select expression fuel) fuel left

def parseOrExpr : ParserM Expr := do
  let left ← parseAndExpr py select expression fuel
  binaryLoop orOp (parseAndExpr py select expression fuel) fuel left

end Operators

def parseExpression (py : Py) (select : ParserM Unit) : ℕ → ParserM Expr
  | 0 => throw .outOfFuel
  | n + 1 => parseOrExpr py select (parseExpression py select n) n

end PySQL.Parse
