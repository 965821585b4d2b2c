import PySQL.Parse.Expression
import PySQL.Parse.Lexer

/-!
# Parsing statements

The methods of `Parser` above `_parse_expression`.  As there, the methods that recurse through a
subquery or a statement get each other as arguments, and `fuel` bounds the loops.  What the trees
leave out is read and dropped: a constraint's value and its references, the constraints of a table
and what CASCADE says.
-/

namespace PySQL.Parse

open Query

section Lists

variable {α : Type} (fuel : ℕ)

/-- `while True`: an item, and the next one if a comma follows. -/
def commaSeparated (item : ParserM α) : ℕ → ParserM (List α)
  | 0 => throw .outOfFuel
  | n + 1 => do
    let first ← item
    if ← matchToken [.comma] then
      let rest ← commaSeparated item n
      return first :: rest
    return [first]

def parseName (message : String := "") : ParserM String := do
  return (← expect .identifier message).value

/-- Names in parentheses. -/
def parseNames (message : String := "") : ParserM (List String) := do
  let _ ← expect .lparen
  let names ← commaSeparated (parseName message) fuel
  let _ ← expect .rparen
  return names

/-- An item in parentheses. -/
def parenthesized (item : ParserM α) : ParserM α := do
  let _ ← expect .lparen
  let a ← item
  let _ ← expect .rparen
  return a

/-- An item after a keyword, if the keyword is there. -/
def clause (type : TokenType) (item : ParserM α) : ParserM (Option α) := do
  if ← matchToken [type] then
    let a ← item
    return some a
  return none

/-- An item after a keyword and BY. -/
def clauseBy (type : TokenType) (item : ParserM α) : ParserM (Option α) := do
  if ← check [type] then
    let _ ← advance
    let _ ← expect .kwBy
    let a ← item
    return some a
  return none

/-- `alias`, with AS or without. -/
def parseAlias (message : String := "") : ParserM (Option String) := do
  if ← matchToken [.kwAs] then
    let name ← parseName message
    return some name
  if ← check [.identifier] then
    let name ← advanceValue
    return some name
  return none

end Lists

/-! ## Table references -/

section Tables

variable (select : ParserM SelectStatement) (expression : ParserM Expr) (fuel : ℕ)

def parsePrimaryTableRef : ParserM TableRef := do
  if ← matchToken [.lparen] then
    if ← check [.kwSelect] then
      let subquery ← select
      let _ ← expect .rparen
      let alias? ← parseAlias
      return .subquery subquery (alias?.getD "")
    else throw (.parseError "Expected SELECT in subquery" (← current))
  let name ← parseName "Expected table name"
  let alias? ← parseAlias
  return .simple name alias?

/-- JOIN after LEFT, RIGHT or FULL. -/
def parseOuterJoin (type : JoinType) : ParserM JoinType := do
  let _ ← matchToken [.kwOuter]
  let _ ← expect .kwJoin
  return type

def parseJoinType : ParserM JoinType := do
  if ← matchToken [.kwNatural] then
    let _ ← matchToken [.kwJoin]
    return .natural
  if ← matchToken [.kwCross] then
    let _ ← expect .kwJoin
    return .cross
  if ← matchToken [.kwInner] then
    let _ ← expect .kwJoin
    return .inner
  if ← matchToken [.kwLeft] then
    return ← parseOuterJoin .left
  if ← matchToken [.kwRight] then
    return ← parseOuterJoin .right
  if ← matchToken [.kwFull] then
    return ← parseOuterJoin .full
  if ← matchToken [.kwJoin] then
    return .inner
  throw (.parseError "Expected JOIN keyword" (← current))

/-- ON with its condition, or USING with its columns. -/
def parseJoinCondition : ParserM (Option Expr × Option (List String)) := do
  if ← matchToken [.kwOn] then
    let condition ← expression
    return (some condition, none)
  if ← matchToken [.kwUsing] then
    let columns ← parseNames fuel
    return (none, some columns)
  return (none, none)

def joinStart : List TokenType :=
  [.kwJoin, .kwInner, .kwLeft, .kwRight, .kwFull, .kwCross, .kwNatural]

/-- The loop of `_parse_table_ref`. -/
def joinLoop : ℕ → TableRef → ParserM TableRef
  | 0, _ => throw .outOfFuel
  | n + 1, left => do
    if ← check (joinStart ++ [.comma]) then
      if ← matchToken [.comma] then
        let right ← parsePrimaryTableRef select
        return ← joinLoop n (.join left right .cross none none)
      let joinType ← parseJoinType
      let right ← parsePrimaryTableRef select
      let condition ← parseJoinCondition expression fuel
      return ← joinLoop n (.join left right joinType condition.1 condition.2)
    return left

def parseTableRef : ParserM TableRef := do
  let left ← parsePrimaryTableRef select
  joinLoop select expression fuel fuel left

end Tables

/-! ## SELECT -/

section Select

variable (py : Py) (select : ParserM SelectStatement) (expression : ParserM Expr) (fuel : ℕ)

/-- `isinstance(expr, ColumnRef)`, with its column. -/
def columnOf : Expr → Option String
  | .columnRef _ column => some column
  | _ => none

/-- What follows an expression of the select list: `.*` makes a star of a column, a dot without a
star is dropped, and so is an empty alias. -/
def parseSelectItemTail (expr : Expr) : ParserM SelectItem := do
  match columnOf expr with
  | some column => do
    if ← matchToken [.dot] then
      if ← matchToken [.star] then
        return (.starExpr (some column), none)
    let alias? ← parseAlias "Expected alias name after AS"
    return (expr, alias?.filter (· ≠ ""))
  | none => do
    let alias? ← parseAlias "Expected alias name after AS"
    return (expr, alias?.filter (· ≠ ""))

def parseSelectItem : ParserM SelectItem := do
  if ← matchToken [.star] then
    return (.starExpr none, none)
  let expr ← expression
  parseSelectItemTail expr

def parseOrderByItem : ParserM OrderByItem := do
  let expr ← expression
  if ← matchToken [.kwDesc] then
    return { expr, descending := true }
  let _ ← matchToken [.kwAsc]
  return { expr, descending := false }

/-- `int(token.value)` -/
def intValue (token : Token) : ParserM ℤ :=
  match py.parseInt (.str token.value) with
  | some n => return n
  | none => throw .valueError

/-- The number after LIMIT or OFFSET. -/
def parseCount (message : String) : ParserM ℤ := do
  let token ← expect .integerLiteral message
  intValue py token

def parseLimit : ParserM (Option ℤ × Option ℤ) := do
  if ← matchToken [.kwLimit] then
    let limit ← parseCount py "Expected integer after LIMIT"
    let offset ← clause .kwOffset (parseCount py "Expected integer after OFFSET")
    return (some limit, offset)
  return (none, none)

/-- The body of `_parse_select`. -/
def selectBody : ParserM SelectStatement := do
  let _ ← expect .kwSelect
  let distinct ← matchToken [.kwDistinct]
  let columns ← commaSeparated (parseSelectItem expression) fuel
  let fromClause ← clause .kwFrom (parseTableRef select expression fuel)
  let whereClause ← clause .kwWhere expression
  let groupBy ← clauseBy .kwGroup (parseExpressionList expression fuel)
  let having ← clause .kwHaving expression
  let orderBy ← clauseBy .kwOrder (commaSeparated (parseOrderByItem expression) fuel)
  let limit ← parseLimit py
  return .mk columns fromClause whereClause groupBy having orderBy limit.1 limit.2 distinct

end Select

/-! ## Changing rows -/

section Rows

variable (expression : ParserM Expr) (fuel : ℕ)

/-- The column list of an INSERT, if there is one. -/
def parseColumnList : ParserM (Option (List String)) := do
  if ← check [.lparen] then
    let columns ← parseNames fuel "Expected column name"
    return some columns
  return none

def parseInsert : ParserM Statement := do
  let _ ← expect .kwInsert
  let _ ← expect .kwInto
  let table ← parseName "Expected table name"
  let columns ← parseColumnList fuel
  let _ ← expect .kwValues
  let values ← commaSeparated (parenthesized (commaSeparated expression fuel)) fuel
  return .insert { table, columns, values }

def parseAssignment : ParserM (String × Expr) := do
  let col ← parseName "Expected column name"
  let _ ← expect .equals "Expected '=' in SET clause"
  let expr ← expression
  return (col, expr)

def parseUpdate : ParserM Statement := do
  let _ ← expect .kwUpdate
  let table ← parseName "Expected table name"
  let _ ← expect .kwSet
  let assignments ← commaSeparated (parseAssignment expression) fuel
  let whereClause ← clause .kwWhere expression
  return .update { table, assignments, whereClause }

def parseDelete : ParserM Statement := do
  let _ ← expect .kwDelete
  let _ ← expect .kwFrom
  let table ← parseName "Expected table name"
  let whereClause ← clause .kwWhere expression
  return .delete { table, whereClause }

end Rows

/-! ## CREATE and DROP -/

section Create

variable (expression : ParserM Expr) (fuel : ℕ)

/-- `IF NOT EXISTS`, if it is there. -/
def parseIfNotExists : ParserM Bool := do
  if ← check [.kwIf] then
    let _ ← advance
    let _ ← expect .kwNot
    let _ ← expect .kwExists
    return true
  return false

def parsePrimaryKey : ParserM (List ConstraintType) := do
  let _ ← expect .kwKey
  if ← matchToken [.kwAutoincrement] then
    return [.primaryKey, .autoincrement]
  return [.primaryKey]

def parseNotNull : ParserM (List ConstraintType) := do
  if ← check [.nullLiteral] then
    let _ ← advance
    return [.notNull]
  throw (.parseError "Expected NULL after NOT" (← current))

def parseReferences : ParserM Unit := do
  let _ ← parseName
  let _ ← expect .lparen
  let _ ← parseName
  let _ ← expect .rparen

/-- One turn of the loop over a column's constraints: the constraints it adds, none at the end. -/
def parseColumnConstraint : ParserM (Option (List ConstraintType)) := do
  if ← matchToken [.kwPrimary] then
    return some (← parsePrimaryKey)
  if ← matchToken [.kwNot] then
    return some (← parseNotNull)
  if ← matchToken [.kwUnique] then
    return some [.unique]
  if ← matchToken [.kwDefault] then
    let _ ← expression
    return some [.default]
  if ← matchToken [.kwCheck] then
    let _ ← parenthesized expression
    return some [.check]
  if ← matchToken [.kwAutoincrement] then
    return some [.autoincrement]
  if ← matchToken [.kwReferences] then
    parseReferences
    return some [.foreignKey]
  return none

def parseColumnConstraints : ℕ → ParserM (List ConstraintType)
  | 0 => throw .outOfFuel
  | n + 1 => do
    match ← parseColumnConstraint expression with
    | some constraints => do
      let rest ← parseColumnConstraints n
      return constraints ++ rest
    | none => return []

def parseColumnDef : ParserM ColumnDef := do
  let name ← parseName "Expected column name"
  let dataType ← parseTargetType
  let constraints ← parseColumnConstraints expression fuel
  return { name, dataType, constraints }

/-- `CONSTRAINT` and the constraint's name, if they are there. -/
def parseConstraintName : ParserM Unit := do
  if ← matchToken [.kwConstraint] then
    let _ ← advance

def parseForeignKey : ParserM Unit := do
  let _ ← expect .kwKey
  let _ ← expect .lparen
  let _ ← parseName
  let _ ← expect .rparen
  let _ ← expect .kwReferences
  parseReferences

def parseTableConstraint : ParserM Unit := do
  parseConstraintName
  if ← matchToken [.kwPrimary] then
    let _ ← expect .kwKey
    let _ ← parseNames fuel
    return
  if ← matchToken [.kwUnique] then
    let _ ← parseNames fuel
    return
  if ← matchToken [.kwForeign] then
    return ← parseForeignKey
  if ← matchToken [.kwCheck] then
    let _ ← parenthesized expression
    return
  throw (.parseError "Expected constraint" (← current))

def tableConstraintStart : List TokenType :=
  [.kwPrimary, .kwUnique, .kwCheck, .kwForeign, .kwConstraint]

/-- A table's constraint, which the tree leaves out, or a column. -/
def parseTableElement : ParserM (Option ColumnDef) := do
  if ← check tableConstraintStart then
    parseTableConstraint expression fuel
    return none
  let column ← parseColumnDef expression fuel
  return some column

/-- The loop of `_parse_create_table`. -/
def parseTableElements : ℕ → ParserM (List (Option ColumnDef))
  | 0 => throw .outOfFuel
  | n + 1 => do
    if ← check [.rparen] then
      return []
    let first ← parseTableElement expression fuel
    if ← matchToken [.comma] then
      let rest ← parseTableElements n
      return first :: rest
    return [first]

def parseCreateTable : ParserM Statement := do
  let _ ← expect .kwTable
  let ifNotExists ← parseIfNotExists
  let name ← parseName "Expected table name"
  let _ ← expect .lparen
  let elements ← parseTableElements expression fuel fuel
  let _ ← expect .rparen
  return .createTable { name, columns := elements.filterMap id, ifNotExists }

def parseCreateIndex (unique : Bool) : ParserM Statement := do
  let _ ← expect .kwIndex
  let _ ← parseIfNotExists
  let name ← parseName "Expected index name"
  let _ ← expect .kwOn
  let table ← parseName "Expected table name"
  let columns ← parseNames fuel
  return .createIndex { name, table, columns, unique }

def parseCreate : ParserM Statement := do
  let _ ← expect .kwCreate
  if ← check [.kwUnique] then
    let _ ← advance
    return ← parseCreateIndex fuel true
  if ← check [.kwIndex] then
    return ← parseCreateIndex fuel false
  parseCreateTable expression fuel

def parseIfExists : ParserM Bool := do
  if ← check [.kwIf] then
    let _ ← advance
    let _ ← expect .kwExists
    return true
  return false

def parseDrop : ParserM Statement := do
  let _ ← expect .kwDrop
  let _ ← expect .kwTable
  let ifExists ← parseIfExists
  let name ← parseName "Expected table name"
  let _ ← matchToken [.kwCascade, .kwRestrict]
  return .dropTable { name, ifExists }

end Create

/-! ## Statements -/

section Statements

variable (py : Py)

def parseSelect : ℕ → ParserM SelectStatement
  | 0 => throw .outOfFuel
  | n + 1 =>
    selectBody py (parseSelect n) (parseExpression py (discard (parseSelect n)) n) n

/-- `_parse_expression`, with `_parse_select` for its subqueries. -/
def expressionWith (fuel : ℕ) : ParserM Expr :=
  parseExpression py (discard (parseSelect py fuel)) fuel

def parseBegin : ParserM Statement := do
  let _ ← expect .kwBegin
  let _ ← matchToken [.kwTransaction]
  return .transaction "BeginStatement"

def parseStatement : ℕ → ParserM Statement
  | 0 => throw .outOfFuel
  | n + 1 => do
    let token ← current
    match token.type with
    | .kwSelect => do return .select (← parseSelect py n)
    | .kwInsert => parseInsert (expressionWith py n) n
    | .kwUpdate => parseUpdate (expressionWith py n) n
    | .kwDelete => parseDelete (expressionWith py n)
    | .kwCreate => parseCreate (expressionWith py n) n
    | .kwDrop => parseDrop
    | .kwExplain => do
      let _ ← advance
      let stmt ← parseStatement n
      return .explain stmt
    | .kwBegin => parseBegin
    | .kwCommit => do
      let _ ← advance
      return .transaction "CommitStatement"
    | .kwRollback => do
      let _ ← advance
      return .transaction "RollbackStatement"
    | _ => throw (.parseError ("Unexpected token: " ++ token.value) token)

/-- The loop of `parse`. -/
def parseFrom (fuel : ℕ) : ℕ → ParserM (List Statement)
  | 0 => throw .outOfFuel
  | n + 1 => do
    if ← check [.eof] then
      return []
    let stmt ← parseStatement py fuel
    let _ ← matchToken [.semicolon]
    let rest ← parseFrom fuel n
    return stmt :: rest

def parse (fuel : ℕ) : ParserM (List Statement) := parseFrom py fuel fuel

end Statements

end PySQL.Parse
