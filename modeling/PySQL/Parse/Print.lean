import PySQL.Parse.Expression

/-!
# Printing expressions

The tokens of an expression, with parentheses where an operand binds less tightly than its place
asks for.  The levels are those of the grammar: OR, AND, NOT, comparisons, `+ - ||`, `* / %`, unary
minus and the primary expressions.
-/

namespace PySQL.Parse

open Query

def opLevel : BinaryOpType → ℕ
  | .or => 0
  | .and => 1
  | .eq | .neq | .lt | .gt | .lte | .gte => 3
  | .add | .sub | .concat => 4
  | .mul | .div | .mod => 5

/-- A comparison does not associate. -/
def leftLevel (op : BinaryOpType) : ℕ := if opLevel op = 3 then 4 else opLevel op

def rightLevel (op : BinaryOpType) : ℕ := opLevel op + 1

def opLexeme : BinaryOpType → Lexeme
  | .or => ⟨.kwOr, "OR"⟩
  | .and => ⟨.kwAnd, "AND"⟩
  | .eq => ⟨.equals, "="⟩
  | .neq => ⟨.notEquals, "!="⟩
  | .lt => ⟨.less, "<"⟩
  | .gt => ⟨.greater, ">"⟩
  | .lte => ⟨.lessEquals, "<="⟩
  | .gte => ⟨.greaterEquals, ">="⟩
  | .add => ⟨.plus, "+"⟩
  | .sub => ⟨.minus, "-"⟩
  | .concat => ⟨.concat, "||"⟩
  | .mul => ⟨.star, "*"⟩
  | .div => ⟨.slash, "/"⟩
  | .mod => ⟨.percent, "%"⟩

def exprLevel : Expr → ℕ
  | .binaryOp op _ _ => opLevel op
  | .unaryOp .not _ => 2
  | .unaryOp .negate _ => 6
  | .isNullExpr .. | .betweenExpr .. | .inExpr .. | .likeExpr .. => 3
  | _ => 7

/-- The tokens of a type name: the name, or a name and a parameter. -/
inductive SpellsType : String → List Lexeme → Prop where
  | name (type : TokenType) (s : String) : SpellsType s [⟨type, s⟩]
  | param (type : TokenType) (s n : String) : SpellsType (s ++ "(" ++ n ++ ")")
      [⟨type, s⟩, ⟨.lparen, "("⟩, ⟨.integerLiteral, n⟩, ⟨.rparen, ")"⟩]

/-- How numbers, names and types are written: a number that some text stands for by a text that
stands for it. -/
structure Spelling (py : Py) where
  integer : ℤ → String
  float : PyFloat → String
  name : String → Lexeme
  targetType : String → List Lexeme
  integer_spec : ∀ text n, py.parseInt (.str text) = some n →
    py.parseInt (.str (integer n)) = some n
  float_spec : ∀ text x, py.parseFloat (.str text) = some x →
    py.parseFloat (.str (float x)) = some x
  name_spec : ∀ s, name s = ⟨.identifier, s⟩ ∨ name s = ⟨.quotedIdentifier, s⟩
  targetType_spec : ∀ s, SpellsType s (targetType s)

section

variable {py : Py} (sp : Spelling py)

def lparen : Lexeme := ⟨.lparen, "("⟩

def rparen : Lexeme := ⟨.rparen, ")"⟩

def comma : Lexeme := ⟨.comma, ","⟩

/-- Tokens in parentheses where these are needed. -/
def enclose (needed : Bool) (w : List Lexeme) : List Lexeme :=
  if needed then lparen :: (w ++ [rparen]) else w

def notLexemes (negated : Bool) : List Lexeme := if negated then [⟨.kwNot, "NOT"⟩] else []

def aggregateType : String → Option TokenType
  | "COUNT" => some .kwCount
  | "SUM" => some .kwSum
  | "AVG" => some .kwAvg
  | "MIN" => some .kwMin
  | "MAX" => some .kwMax
  | _ => none

def onlyStar : List Expr → Bool
  | [.starExpr _] => true
  | _ => false

/-- The keyword of an aggregate, else the name.  After the keyword an argument list that begins with
a star is over with the star, so the name of such a call is quoted unless the star is all. -/
def callLexeme (name : String) (args : List Expr) (distinct : Bool) (w : List Lexeme) : Lexeme :=
  match aggregateType name with
  | some type =>
    if distinct ∨ onlyStar args ∨ w.head?.map Lexeme.type ≠ some .star then ⟨type, name⟩
    else ⟨.quotedIdentifier, name⟩
  | none => sp.name name

def literalLexeme : Value → Lexeme
  | .null => ⟨.nullLiteral, "NULL"⟩
  | .bool b => ⟨.booleanLiteral, if b then "TRUE" else "FALSE"⟩
  | .int n => ⟨.integerLiteral, sp.integer n⟩
  | .float x => ⟨.floatLiteral, sp.float x⟩
  | .str s => ⟨.stringLiteral, s⟩
  | .bytes _ => ⟨.invalid, ""⟩

mutual

/-- The tokens of an expression. -/
def print : Expr → List Lexeme
  | .literal value => [literalLexeme sp value]
  | .columnRef none column => [sp.name column]
  | .columnRef (some table) column => [sp.name table, ⟨.dot, "."⟩, sp.name column]
  | .binaryOp op left right =>
    enclose (exprLevel left < leftLevel op) (print left) ++
      opLexeme op :: enclose (exprLevel right < rightLevel op) (print right)
  | .unaryOp .not operand =>
    ⟨.kwNot, "NOT"⟩ :: enclose (exprLevel operand < 2) (print operand)
  | .unaryOp .negate operand =>
    ⟨.minus, "-"⟩ :: enclose (exprLevel operand < 6) (print operand)
  | .functionCall name args distinct _ =>
    let w := List.intercalate [comma] (printAll args)
    callLexeme sp name args distinct w :: lparen ::
      ((if distinct then [⟨.kwDistinct, "DISTINCT"⟩] else []) ++ (w ++ [rparen]))
  | .starExpr _ => [⟨.star, "*"⟩]
  | .betweenExpr expr low high negated =>
    enclose (exprLevel expr < 4) (print expr) ++ (notLexemes negated ++ ⟨.kwBetween, "BETWEEN"⟩ ::
      (enclose (exprLevel low < 4) (print low) ++
        ⟨.kwAnd, "AND"⟩ :: enclose (exprLevel high < 4) (print high)))
  | .inExpr expr values negated =>
    enclose (exprLevel expr < 4) (print expr) ++ (notLexemes negated ++ ⟨.kwIn, "IN"⟩ :: lparen ::
      (List.intercalate [comma] (printAll values) ++ [rparen]))
  | .likeExpr expr pattern negated =>
    enclose (exprLevel expr < 4) (print expr) ++ (notLexemes negated ++
      ⟨.kwLike, "LIKE"⟩ :: enclose (exprLevel pattern < 4) (print pattern))
  | .isNullExpr expr negated =>
    enclose (exprLevel expr < 4) (print expr) ++
      ⟨.kwIs, "IS"⟩ :: (notLexemes negated ++ [⟨.nullLiteral, "NULL"⟩])
  | .caseExpr operand whenClauses elseClause =>
    ⟨.kwCase, "CASE"⟩ :: (printOperand operand ++ (printWhen whenClauses ++
      (printElse elseClause ++ [⟨.kwEnd, "END"⟩])))
  | .castExpr expr targetType =>
    ⟨.kwCast, "CAST"⟩ :: lparen :: (print expr ++ ⟨.kwAs, "AS"⟩ ::
      (sp.targetType targetType ++ [rparen]))
  | .existsExpr | .subqueryExpr => []

def printAll : List Expr → List (List Lexeme)
  | [] => []
  | expr :: rest => print expr :: printAll rest

def printOperand : Option Expr → List Lexeme
  | none => []
  | some operand => print operand

def printElse : Option Expr → List Lexeme
  | none => []
  | some elseClause => ⟨.kwElse, "ELSE"⟩ :: print elseClause

def printWhen : List (Expr × Expr) → List Lexeme
  | [] => []
  | (condition, result) :: rest =>
    ⟨.kwWhen, "WHEN"⟩ :: (print condition ++ ⟨.kwThen, "THEN"⟩ :: (print result ++ printWhen rest))

end

/-- The tokens of an expression in a place of the given level. -/
def printAt (k : ℕ) (expr : Expr) : List Lexeme := enclose (exprLevel expr < k) (print sp expr)

end

/-! ## What the parser can build -/

section

variable (py : Py)

mutual

/-- The trees that are built from tokens: no subqueries, a WHEN in every CASE, values that some
token stands for, and the flags that go with the name of a function. -/
def Printable : Expr → Prop
  | .literal (.int n) => ∃ text, py.parseInt (.str text) = some n
  | .literal (.float x) => ∃ text, py.parseFloat (.str text) = some x
  | .literal (.bytes _) => False
  | .literal _ => True
  | .columnRef _ _ => True
  | .binaryOp _ left right => Printable left ∧ Printable right
  | .unaryOp _ operand => Printable operand
  | .functionCall name args distinct isAggregate =>
    isAggregate = decide (py.upper name ∈ aggregateNames) ∧
      (distinct = true → args = [] → name ∈ aggregateNames) ∧ PrintableAll args
  | .starExpr table => table = none
  | .betweenExpr expr low high _ => Printable expr ∧ Printable low ∧ Printable high
  | .inExpr expr values _ => Printable expr ∧ values ≠ [] ∧ PrintableAll values
  | .likeExpr expr pattern _ => Printable expr ∧ Printable pattern
  | .isNullExpr expr _ => Printable expr
  | .caseExpr operand whenClauses elseClause =>
    PrintableOption operand ∧ whenClauses ≠ [] ∧ PrintableWhen whenClauses ∧
      PrintableOption elseClause
  | .castExpr expr _ => Printable expr
  | .existsExpr | .subqueryExpr => False

def PrintableAll : List Expr → Prop
  | [] => True
  | expr :: rest => Printable expr ∧ PrintableAll rest

def PrintableOption : Option Expr → Prop
  | none => True
  | some expr => Printable expr

def PrintableWhen : List (Expr × Expr) → Prop
  | [] => True
  | (condition, result) :: rest =>
    (Printable condition ∧ Printable result) ∧ PrintableWhen rest

end

end

end PySQL.Parse
