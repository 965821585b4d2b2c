import Mathlib.Data.List.Basic

/-!
# Tokens

What the lexer makes of a source text and the parser reads.
-/

namespace PySQL.Parse

inductive TokenType where
  | integerLiteral
  | floatLiteral
  | stringLiteral
  | booleanLiteral
  | nullLiteral
  | identifier
  | quotedIdentifier
  | kwSelect
  | kwFrom
  | kwWhere
  | kwInsert
  | kwInto
  | kwValues
  | kwUpdate
  | kwSet
  | kwDelete
  | kwCreate
  | kwTable
  | kwDrop
  | kwAlter
  | kwAdd
  | kwColumn
  | kwIndex
  | kwOn
  | kwPrimary
  | kwKey
  | kwForeign
  | kwReferences
  | kwUnique
  | kwNot
  | kwDefault
  | kwNull
  | kwAnd
  | kwOr
  | kwIn
  | kwBetween
  | kwLike
  | kwIs
  | kwAs
  | kwJoin
  | kwInner
  | kwLeft
  | kwRight
  | kwOuter
  | kwCross
  | kwFull
  | kwOrder
  | kwBy
  | kwAsc
  | kwDesc
  | kwGroup
  | kwHaving
  | kwLimit
  | kwOffset
  | kwDistinct
  | kwAll
  | kwExists
  | kwCase
  | kwWhen
  | kwThen
  | kwElse
  | kwEnd
  | kwCast
  | kwBegin
  | kwCommit
  | kwRollback
  | kwTransaction
  | kwIf
  | kwExplain
  | kwUnion
  | kwIntersect
  | kwExcept
  | kwTrue
  | kwFalse
  | kwCheck
  | kwConstraint
  | kwCascade
  | kwRestrict
  | kwAutoincrement
  | kwCount
  | kwSum
  | kwAvg
  | kwMin
  | kwMax
  | kwUsing
  | kwNatural
  | plus
  | minus
  | star
  | slash
  | percent
  | equals
  | notEquals
  | less
  | greater
  | lessEquals
  | greaterEquals
  | concat
  | lparen
  | rparen
  | comma
  | semicolon
  | dot
  | eof
  | invalid
deriving DecidableEq, Repr

/-- `type.name` -/
def TokenType.name : TokenType → String
  | .integerLiteral => "INTEGER_LITERAL"
  | .floatLiteral => "FLOAT_LITERAL"
  | .stringLiteral => "STRING_LITERAL"
  | .booleanLiteral => "BOOLEAN_LITERAL"
  | .nullLiteral => "NULL_LITERAL"
  | .identifier => "IDENTIFIER"
  | .quotedIdentifier => "QUOTED_IDENTIFIER"
  | .kwSelect => "SELECT"
  | .kwFrom => "FROM"
  | .kwWhere => "WHERE"
  | .kwInsert => "INSERT"
  | .kwInto => "INTO"
  | .kwValues => "VALUES"
  | .kwUpdate => "UPDATE"
  | .kwSet => "SET"
  | .kwDelete => "DELETE"
  | .kwCreate => "CREATE"
  | .kwTable => "TABLE"
  | .kwDrop => "DROP"
  | .kwAlter => "ALTER"
  | .kwAdd => "ADD"
  | .kwColumn => "COLUMN"
  | .kwIndex => "INDEX"
  | .kwOn => "ON"
  | .kwPrimary => "PRIMARY"
  | .kwKey => "KEY"
  | .kwForeign => "FOREIGN"
  | .kwReferences => "REFERENCES"
  | .kwUnique => "UNIQUE"
  | .kwNot => "NOT"
  | .kwDefault => "DEFAULT"
  | .kwNull => "NULL"
  | .kwAnd => "AND"
  | .kwOr => "OR"
  | .kwIn => "IN"
  | .kwBetween => "BETWEEN"
  | .kwLike => "LIKE"
  | .kwIs => "IS"
  | .kwAs => "AS"
  | .kwJoin => "JOIN"
  | .kwInner => "INNER"
  | .kwLeft => "LEFT"
  | .kwRight => "RIGHT"
  | .kwOuter => "OUTER"
  | .kwCross => "CROSS"
  | .kwFull => "FULL"
  | .kwOrder => "ORDER"
  | .kwBy => "BY"
  | .kwAsc => "ASC"
  | .kwDesc => "DESC"
  | .kwGroup => "GROUP"
  | .kwHaving => "HAVING"
  | .kwLimit => "LIMIT"
  | .kwOffset => "OFFSET"
  | .kwDistinct => "DISTINCT"
  | .kwAll => "ALL"
  | .kwExists => "EXISTS"
  | .kwCase => "CASE"
  | .kwWhen => "WHEN"
  | .kwThen => "THEN"
  | .kwElse => "ELSE"
  | .kwEnd => "END"
  | .kwCast => "CAST"
  | .kwBegin => "BEGIN"
  | .kwCommit => "COMMIT"
  | .kwRollback => "ROLLBACK"
  | .kwTransaction => "TRANSACTION"
  | .kwIf => "IF"
  | .kwExplain => "EXPLAIN"
  | .kwUnion => "UNION"
  | .kwIntersect => "INTERSECT"
  | .kwExcept => "EXCEPT"
  | .kwTrue => "TRUE"
  | .kwFalse => "FALSE"
  | .kwCheck => "CHECK"
  | .kwConstraint => "CONSTRAINT"
  | .kwCascade => "CASCADE"
  | .kwRestrict => "RESTRICT"
  | .kwAutoincrement => "AUTOINCREMENT"
  | .kwCount => "COUNT"
  | .kwSum => "SUM"
  | .kwAvg => "AVG"
  | .kwMin => "MIN"
  | .kwMax => "MAX"
  | .kwUsing => "USING"
  | .kwNatural => "NATURAL"
  | .plus => "PLUS"
  | .minus => "MINUS"
  | .star => "STAR"
  | .slash => "SLASH"
  | .percent => "PERCENT"
  | .equals => "EQUALS"
  | .notEquals => "NOT_EQUALS"
  | .less => "LESS"
  | .greater => "GREATER"
  | .lessEquals => "LESS_EQUALS"
  | .greaterEquals => "GREATER_EQUALS"
  | .concat => "CONCAT"
  | .lparen => "LPAREN"
  | .rparen => "RPAREN"
  | .comma => "COMMA"
  | .semicolon => "SEMICOLON"
  | .dot => "DOT"
  | .eof => "EOF"
  | .invalid => "INVALID"

/-- What the parser looks at in a token. -/
structure Lexeme where
  type : TokenType
  value : String
deriving DecidableEq, Repr

structure Token extends Lexeme where
  line : ℕ
  column : ℕ
deriving DecidableEq, Repr

end PySQL.Parse
