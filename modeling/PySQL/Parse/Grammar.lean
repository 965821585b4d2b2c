import PySQL.Lib.Grammar
import PySQL.Parse.Token

/-!
# The grammar of the parser

What each method reads, with the choices it makes at the next token.  The attribute of a phrase says
whether a column and nothing else was read, or for an optional phrase whether it was there.
-/

namespace PySQL.Parse

open Lib

/-- `inCall` says whether an expression stands among the arguments of a function. -/
inductive Phrase where
  | optional (types : List TokenType)
  | clause (type : TokenType) (p : Phrase)
  | clauseBy (type : TokenType) (p : Phrase)
  | parens (p : Phrase)
  | list (p : Phrase)
  | name
  | names
  | aliasName
  | expression (inCall : Bool)
  | andExpr (inCall : Bool)
  | notExpr (inCall : Bool)
  | comparison (inCall : Bool)
  | comparisonTail (inCall column : Bool)
  | predicate (inCall : Bool)
  | isTest
  | inList (inCall : Bool)
  | addition (inCall : Bool)
  | multiplication (inCall : Bool)
  | unary (inCall : Bool)
  | primary (inCall : Bool)
  | operators (ops : List TokenType) (operand : Phrase) (column : Bool)
  | unaryOperators (type : TokenType) (operand : Phrase)
  | integer
  | float
  | identifier
  | columnName
  | callArgs
  | aggregate
  | aggregateArgs
  | parenthesized (inCall : Bool)
  | caseExpr (inCall : Bool)
  | caseOperand (inCall : Bool)
  | whenClauses (inCall first : Bool)
  | castExpr (inCall : Bool)
  | typeName
  | targetType
  | starOperand (inCall : Bool)
  | select
  | selectItem
  | selectItemTail (column : Bool)
  | orderByItem
  | limit
  | tableRef
  | primaryTableRef
  | joins
  | joinType
  | joinCondition
  | insert
  | columnList
  | update
  | assignment
  | delete
  | create
  | createTable
  | createIndex
  | ifNotExists
  | ifExists
  | tableElements
  | tableElement
  | columnDef
  | columnConstraints
  | columnConstraint
  | primaryKey
  | notNull
  | references
  | tableConstraint
  | constraintName
  | foreignKey
  | drop
  | beginTransaction
  | statement
  | statements
  /-- What stands after the dot of a column and is no name. -/
  | unnamed
  /-- A dot after a column, with neither a name nor a star after it. -/
  | danglingDot
  /-- The place of the first WHEN of a CASE, where there is none. -/
  | bareCase
  /-- The end of the tokens, where a name should be. -/
  | endAsName
  /-- The place of a semicolon between two statements, where there is none. -/
  | unseparated

namespace Phrase

abbrev Production : Type := Rule Phrase TokenType Bool

def nothing : Production := .done false

/-- A phrase, and on whatever its attribute is. -/
def seq (p : Phrase) (next : Production := nothing) : Production := .call p fun _ => next

/-- `_expect` -/
def tok (type : TokenType) (next : Production := nothing) : Production := .token [type] next

/-- `if self._match` -/
def ifTok (types : List TokenType) (yes no : Production) : Production :=
  .branch 0 types (.token types yes) no

/-- `if self._check` -/
def ifAt (types : List TokenType) (yes no : Production) : Production := .branch 0 types yes no

/-- Operands with operators between them. -/
def chain (ops : List TokenType) (operand : Phrase) : Production :=
  .call operand fun column => .call (.operators ops operand column) .done

def additionOps : List TokenType := [.plus, .minus, .concat]

def multiplicationOps : List TokenType := [.star, .slash, .percent]

def comparisonOps : List TokenType :=
  [.equals, .notEquals, .less, .greater, .lessEquals, .greaterEquals]

def predicateStart : List TokenType := [.kwBetween, .kwIn, .kwLike]

def aggregateTypes : List TokenType := [.kwCount, .kwSum, .kwAvg, .kwMin, .kwMax]

def nameTypes : List TokenType := [.identifier, .quotedIdentifier]

def joinStart : List TokenType :=
  [.kwJoin, .kwInner, .kwLeft, .kwRight, .kwFull, .kwCross, .kwNatural]

def tableConstraintStart : List TokenType :=
  [.kwPrimary, .kwUnique, .kwCheck, .kwForeign, .kwConstraint]

/-- The phrases of `_parse_primary`. -/
def primaryRule (inCall : Bool) : Production :=
  ifTok [.nullLiteral, .booleanLiteral, .stringLiteral] nothing <|
  ifAt [.integerLiteral] (.call .integer .done) <|
  ifAt [.floatLiteral] (.call .float .done) <|
  ifTok [.kwCase] (.call (.caseExpr inCall) .done) <|
  ifTok [.kwCast] (.call (.castExpr inCall) .done) <|
  ifTok [.kwExists] (.call (.parens .select) .done) <|
  ifAt aggregateTypes (.call .aggregate .done) <|
  ifTok [.lparen] (.call (.parenthesized inCall) .done) <|
  ifAt nameTypes (.call .identifier .done) <|
  ifAt [.star] (.call (.starOperand inCall) .done) .fail

/-- What follows the left side of a comparison, without IS or NOT. -/
def plainTailRule (inCall column : Bool) : Production :=
  ifAt predicateStart (.call (.predicate inCall) .done) <|
  ifTok comparisonOps (Phrase.addition inCall).seq (.done column)

def selectRule : Production :=
  tok .kwSelect <| (optional [.kwDistinct]).seq <| (list .selectItem).seq <|
  (clause .kwFrom .tableRef).seq <| (clause .kwWhere (.expression false)).seq <|
  (clauseBy .kwGroup (.list (.expression false))).seq <|
  (clause .kwHaving (.expression false)).seq <|
  (clauseBy .kwOrder (.list .orderByItem)).seq <| Phrase.limit.seq

def columnConstraintRule : Production :=
  ifTok [.kwPrimary] (Phrase.primaryKey.seq (.done true)) <|
  ifTok [.kwNot] (Phrase.notNull.seq (.done true)) <|
  ifTok [.kwUnique] (.done true) <|
  ifTok [.kwDefault] ((expression false).seq (.done true)) <|
  ifTok [.kwCheck] ((parens (.expression false)).seq (.done true)) <|
  ifTok [.kwAutoincrement] (.done true) <|
  ifTok [.kwReferences] (Phrase.references.seq (.done true)) nothing

def statementRule : Production :=
  ifAt [.kwSelect] Phrase.select.seq <|
  ifAt [.kwInsert] Phrase.insert.seq <|
  ifAt [.kwUpdate] Phrase.update.seq <|
  ifAt [.kwDelete] Phrase.delete.seq <|
  ifAt [.kwCreate] Phrase.create.seq <|
  ifAt [.kwDrop] Phrase.drop.seq <|
  ifTok [.kwExplain] Phrase.statement.seq <|
  ifAt [.kwBegin] Phrase.beginTransaction.seq <|
  ifTok [.kwCommit] nothing <|
  ifTok [.kwRollback] nothing .fail

def rules : Phrase → Production
  | optional types => ifTok types (.done true) nothing
  | clause type p => ifTok [type] p.seq nothing
  | clauseBy type p => ifTok [type] (tok .kwBy p.seq) nothing
  | parens p => tok .lparen <| p.seq <| tok .rparen
  | list p => p.seq <| ifTok [.comma] (list p).seq nothing
  | name => tok .identifier
  | names => (parens (.list .name)).seq
  | aliasName => ifTok [.kwAs] Phrase.name.seq <| ifTok [.identifier] nothing nothing
  | expression inCall => chain [.kwOr] (.andExpr inCall)
  | andExpr inCall => chain [.kwAnd] (.notExpr inCall)
  | notExpr inCall => .call (.unaryOperators .kwNot (.comparison inCall)) .done
  | comparison inCall =>
    .call (.addition inCall) fun column => .call (.comparisonTail inCall column) .done
  | comparisonTail inCall column =>
    ifTok [.kwIs] (.call .isTest .done) <|
    ifAt [.kwNot]
      (.branch 1 predicateStart (tok .kwNot (.call (.predicate inCall) .done))
        (plainTailRule inCall column))
      (plainTailRule inCall column)
  | predicate inCall =>
    ifTok [.kwBetween] ((addition inCall).seq <| tok .kwAnd <| (addition inCall).seq) <|
    ifTok [.kwIn] (.call (.inList inCall) .done) <|
    tok .kwLike (addition inCall).seq
  | isTest => (optional [.kwNot]).seq <| tok .nullLiteral
  | inList inCall =>
    tok .lparen <| ifAt [.kwSelect] (Phrase.select.seq <| tok .rparen) <|
    (list (.expression inCall)).seq <| tok .rparen
  | addition inCall => chain additionOps (.multiplication inCall)
  | multiplication inCall => chain multiplicationOps (.unary inCall)
  | unary inCall => .call (.unaryOperators .minus (.primary inCall)) .done
  | primary inCall => primaryRule inCall
  | operators ops operand column =>
    ifTok ops (operand.seq <| .call (.operators ops operand false) .done) (.done column)
  | unaryOperators type operand => ifTok [type] (unaryOperators type operand).seq (.call operand .done)
  | integer => tok .integerLiteral
  | float => tok .floatLiteral
  | identifier =>
    .token nameTypes <| ifTok [.lparen] (Phrase.callArgs.seq <| tok .rparen) <|
    ifTok [.dot] (Phrase.columnName.seq (.done true)) (.done true)
  | columnName => ifTok nameTypes nothing Phrase.unnamed.seq
  | callArgs =>
    ifAt [.rparen] nothing <| (optional [.kwDistinct]).seq (list (.expression true)).seq
  | aggregate => .token aggregateTypes <| tok .lparen <| Phrase.aggregateArgs.seq <| tok .rparen
  | aggregateArgs =>
    ifTok [.star] nothing <| (optional [.kwDistinct]).seq <|
    ifAt [.rparen] nothing (list (.expression true)).seq
  | parenthesized inCall =>
    ifAt [.kwSelect] (Phrase.select.seq <| tok .rparen) <|
    .call (.expression inCall) fun column => tok .rparen (.done column)
  | caseExpr inCall =>
    (caseOperand inCall).seq <| (whenClauses inCall true).seq <|
    (clause .kwElse (.expression inCall)).seq <| tok .kwEnd
  | caseOperand inCall => ifAt [.kwWhen] nothing (expression inCall).seq
  | whenClauses inCall first =>
    ifTok [.kwWhen]
      ((expression inCall).seq <| tok .kwThen <| (expression inCall).seq <|
        (whenClauses inCall false).seq)
      (if first then Phrase.bareCase.seq else nothing)
  | castExpr inCall =>
    tok .lparen <| (expression inCall).seq <| tok .kwAs <| Phrase.targetType.seq <| tok .rparen
  | typeName => ifAt [.eof] Phrase.endAsName.seq (.any nothing)
  | targetType =>
    Phrase.typeName.seq <| ifTok [.lparen] (tok .integerLiteral <| tok .rparen) nothing
  | starOperand _ => tok .star
  | select => selectRule
  | selectItem =>
    ifTok [.star] nothing <|
    .call (.expression false) fun column => (selectItemTail column).seq
  | selectItemTail column =>
    if column then
      ifTok [.dot] (ifTok [.star] nothing <| Phrase.danglingDot.seq Phrase.aliasName.seq)
        Phrase.aliasName.seq
    else Phrase.aliasName.seq
  | orderByItem =>
    (expression false).seq <| ifTok [.kwDesc] nothing (optional [.kwAsc]).seq
  | limit =>
    ifTok [.kwLimit] (Phrase.integer.seq (clause .kwOffset .integer).seq) nothing
  | tableRef => Phrase.primaryTableRef.seq Phrase.joins.seq
  | primaryTableRef =>
    ifTok [.lparen]
      (ifAt [.kwSelect] (Phrase.select.seq <| tok .rparen Phrase.aliasName.seq) .fail)
      (Phrase.name.seq Phrase.aliasName.seq)
  | joins =>
    ifAt (joinStart ++ [.comma])
      (ifTok [.comma] (Phrase.primaryTableRef.seq Phrase.joins.seq) <|
        Phrase.joinType.seq <| Phrase.primaryTableRef.seq <| Phrase.joinCondition.seq <|
        Phrase.joins.seq)
      nothing
  | joinType =>
    ifTok [.kwNatural] (optional [.kwJoin]).seq <|
    ifTok [.kwCross] (tok .kwJoin) <|
    ifTok [.kwInner] (tok .kwJoin) <|
    ifTok [.kwLeft] ((optional [.kwOuter]).seq <| tok .kwJoin) <|
    ifTok [.kwRight] ((optional [.kwOuter]).seq <| tok .kwJoin) <|
    ifTok [.kwFull] ((optional [.kwOuter]).seq <| tok .kwJoin) <|
    ifTok [.kwJoin] nothing .fail
  | joinCondition =>
    ifTok [.kwOn] (expression false).seq <| ifTok [.kwUsing] Phrase.names.seq nothing
  | insert =>
    tok .kwInsert <| tok .kwInto <| Phrase.name.seq <| Phrase.columnList.seq <|
    tok .kwValues <| (list (.parens (.list (.expression false)))).seq
  | columnList => ifAt [.lparen] Phrase.names.seq nothing
  | update =>
    tok .kwUpdate <| Phrase.name.seq <| tok .kwSet <| (list .assignment).seq <|
    (clause .kwWhere (.expression false)).seq
  | assignment => Phrase.name.seq <| tok .equals (expression false).seq
  | delete =>
    tok .kwDelete <| tok .kwFrom <| Phrase.name.seq <|
    (clause .kwWhere (.expression false)).seq
  | create =>
    tok .kwCreate <| ifTok [.kwUnique] Phrase.createIndex.seq <|
    ifAt [.kwIndex] Phrase.createIndex.seq Phrase.createTable.seq
  | createTable =>
    tok .kwTable <| Phrase.ifNotExists.seq <| Phrase.name.seq <| tok .lparen <|
    Phrase.tableElements.seq <| tok .rparen
  | createIndex =>
    tok .kwIndex <| Phrase.ifNotExists.seq <| Phrase.name.seq <| tok .kwOn <|
    Phrase.name.seq Phrase.names.seq
  | ifNotExists => ifTok [.kwIf] (tok .kwNot <| tok .kwExists) nothing
  | ifExists => ifTok [.kwIf] (tok .kwExists) nothing
  | tableElements =>
    ifAt [.rparen] nothing <| Phrase.tableElement.seq <|
    ifTok [.comma] Phrase.tableElements.seq nothing
  | tableElement => ifAt tableConstraintStart Phrase.tableConstraint.seq Phrase.columnDef.seq
  | columnDef => Phrase.name.seq <| Phrase.targetType.seq Phrase.columnConstraints.seq
  | columnConstraints =>
    .call .columnConstraint fun more => if more then Phrase.columnConstraints.seq else nothing
  | columnConstraint => columnConstraintRule
  | primaryKey => tok .kwKey <| ifTok [.kwAutoincrement] nothing nothing
  | notNull => ifTok [.nullLiteral] nothing .fail
  | references => Phrase.name.seq <| tok .lparen <| Phrase.name.seq <| tok .rparen
  | tableConstraint =>
    Phrase.constraintName.seq <|
    ifTok [.kwPrimary] (tok .kwKey Phrase.names.seq) <|
    ifTok [.kwUnique] Phrase.names.seq <|
    ifTok [.kwForeign] Phrase.foreignKey.seq <|
    ifTok [.kwCheck] (parens (.expression false)).seq .fail
  | constraintName => ifTok [.kwConstraint] Phrase.typeName.seq nothing
  | foreignKey =>
    tok .kwKey <| tok .lparen <| Phrase.name.seq <| tok .rparen <|
    tok .kwReferences Phrase.references.seq
  | drop =>
    tok .kwDrop <| tok .kwTable <| Phrase.ifExists.seq <| Phrase.name.seq
    (optional [.kwCascade, .kwRestrict]).seq
  | beginTransaction => tok .kwBegin (optional [.kwTransaction]).seq
  | statement => statementRule
  | statements =>
    ifAt [.eof] nothing <| Phrase.statement.seq <|
    .call (.optional [.semicolon]) fun separated =>
      if separated then Phrase.statements.seq
      else ifAt [.eof] nothing <| Phrase.unseparated.seq Phrase.statements.seq
  | unnamed => .pass nothing
  | danglingDot => nothing
  | bareCase => nothing
  | endAsName => .pass nothing
  | unseparated => nothing

end Phrase

def grammar : Grammar Lexeme TokenType Phrase Bool where
  kind := Lexeme.type
  stop := .eof
  rules := Phrase.rules

end PySQL.Parse
