import PySQL.Query.Float

/-!
# The syntax tree

The expressions, table references and statements that the planner and the executor take apart.
-/

namespace PySQL.Query

/-- What a cell holds and what an expression evaluates to. -/
inductive Value where
  | null
  | bool (b : Bool)
  | int (n : ℤ)
  | float (x : PyFloat)
  | str (s : String)
  | bytes (bs : List UInt8)
deriving DecidableEq, Repr

abbrev Row : Type := List Value

inductive BinaryOpType where
  | add
  | sub
  | mul
  | div
  | mod
  | eq
  | neq
  | lt
  | gt
  | lte
  | gte
  | and
  | or
  | concat
deriving DecidableEq, Repr

inductive UnaryOpType where
  | not
  | negate
deriving DecidableEq, Repr

/-- A literal of type "null" is `literal .null`.  The subquery of IN, EXISTS or a scalar subquery is
left out: it is never evaluated. -/
inductive Expr where
  | literal (value : Value)
  | columnRef (table : Option String) (column : String)
  | binaryOp (op : BinaryOpType) (left right : Expr)
  | unaryOp (op : UnaryOpType) (operand : Expr)
  | functionCall (name : String) (args : List Expr) (distinct isAggregate : Bool)
  | starExpr (table : Option String)
  | betweenExpr (expr low high : Expr) (negated : Bool)
  | inExpr (expr : Expr) (values : List Expr) (negated : Bool)
  | likeExpr (expr pattern : Expr) (negated : Bool)
  | isNullExpr (expr : Expr) (negated : Bool)
  | caseExpr (operand : Option Expr) (whenClauses : List (Expr × Expr)) (elseClause : Option Expr)
  | castExpr (expr : Expr) (targetType : String)
  | existsExpr
  | subqueryExpr

/-! ## Table references and queries -/

inductive JoinType where
  | inner
  | left
  | right
  | full
  | cross
  | natural
deriving DecidableEq, Repr

/-- An item of a select list: an expression and its alias. -/
abbrev SelectItem : Type := Expr × Option String

structure OrderByItem where
  expr : Expr
  descending : Bool

mutual

inductive TableRef where
  | simple (name : String) (aliasName : Option String)
  | join (left right : TableRef) (joinType : JoinType) (condition : Option Expr)
    (usingColumns : Option (List String))
  | subquery (subquery : SelectStatement) (aliasName : String)

inductive SelectStatement where
  | mk (columns : List SelectItem) (fromClause : Option TableRef) (whereClause : Option Expr)
    (groupBy : Option (List Expr)) (having : Option Expr) (orderBy : Option (List OrderByItem))
    (limit offset : Option ℤ) (distinct : Bool)

end

/-! ## Table and index definitions -/

inductive ConstraintType where
  | primaryKey
  | notNull
  | unique
  | default
  | check
  | foreignKey
  | autoincrement
deriving DecidableEq, Repr

/-- `type.name` -/
def ConstraintType.name : ConstraintType → String
  | .primaryKey => "PRIMARY_KEY"
  | .notNull => "NOT_NULL"
  | .unique => "UNIQUE"
  | .default => "DEFAULT"
  | .check => "CHECK"
  | .foreignKey => "FOREIGN_KEY"
  | .autoincrement => "AUTOINCREMENT"

structure ColumnDef where
  name : String
  dataType : String
  constraints : List ConstraintType := []

structure CreateTableStatement where
  name : String
  columns : List ColumnDef
  ifNotExists : Bool := false

structure DropTableStatement where
  name : String
  ifExists : Bool := false

structure CreateIndexStatement where
  name : String
  table : String
  columns : List String
  unique : Bool := false

structure InsertStatement where
  table : String
  columns : Option (List String)
  values : List (List Expr)

structure UpdateStatement where
  table : String
  assignments : List (String × Expr)
  whereClause : Option Expr

structure DeleteStatement where
  table : String
  whereClause : Option Expr

inductive Statement where
  | select (stmt : SelectStatement)
  | insert (stmt : InsertStatement)
  | update (stmt : UpdateStatement)
  | delete (stmt : DeleteStatement)
  | createTable (stmt : CreateTableStatement)
  | dropTable (stmt : DropTableStatement)
  | createIndex (stmt : CreateIndexStatement)
  | explain (stmt : Statement)
  /-- BEGIN, COMMIT and ROLLBACK, with the name of the class. -/
  | transaction (className : String)

end PySQL.Query
