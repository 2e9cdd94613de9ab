import CTree.Grammar.Expr

/-!
# The grammar of C

One rule for each construct of C, from the whole source down to the primary
expression. There is no table of type names: an identifier is read as the name of
a type where another identifier or a star follows it.

Rules begin with what they share. An assignment reads its left-hand side once, as
a conditional expression, so that nested parentheses are not read again and again.
-/
namespace CTree.Grammar
open CTree.Lexical

inductive Rule
  | compilationUnit | translationUnit | externalDeclaration | functionDefinition | declarationList
  | declaration | declarationSpecifiers | declarationSpecifier | initDeclaratorList
  | initDeclarator | storageClassSpecifier | typeSpecifier | typedefName | structOrUnionSpecifier
  | structOrUnion | structDeclarationList | structDeclaration | specifierQualifierList
  | structDeclaratorList | structDeclarator | enumSpecifier | enumeratorList | enumerator
  | enumerationConstant | atomicTypeSpecifier | typeQualifier | functionSpecifier
  | alignmentSpecifier | declarator | directDeclarator | declaratorSuffix | pointer
  | typeQualifierList | parameterTypeList | parameterList | parameterDeclaration | identifierList
  | typeName | abstractDeclarator | directAbstractDeclarator | initializer | initializerList
  | designation | designatorList | designator | staticAssertDeclaration | statement
  | labeledStatement | compoundStatement | blockItemList | blockItem | expressionStatement
  | selectionStatement | iterationStatement | forCondition | forDeclaration | forExpression
  | jumpStatement | primaryExpression | genericSelection | genericAssocList | genericAssociation
  | postfixExpression | argumentExpressionList | unaryExpression | unaryOperator | castExpression
  | multiplicativeExpression | additiveExpression | shiftExpression | relationalExpression
  | equalityExpression | andExpression | exclusiveOrExpression | inclusiveOrExpression
  | logicalAndExpression | logicalOrExpression | conditionalExpression | assignmentExpression
  | assignmentOperator | expression | constantExpression
  deriving Repr, DecidableEq

namespace Rule

/-- All rules, in the order in which they are listed. -/
def all : List Rule :=
  [.compilationUnit, .translationUnit, .externalDeclaration, .functionDefinition,
   .declarationList, .declaration, .declarationSpecifiers, .declarationSpecifier,
   .initDeclaratorList, .initDeclarator, .storageClassSpecifier, .typeSpecifier, .typedefName,
   .structOrUnionSpecifier, .structOrUnion, .structDeclarationList, .structDeclaration,
   .specifierQualifierList, .structDeclaratorList, .structDeclarator, .enumSpecifier,
   .enumeratorList, .enumerator, .enumerationConstant, .atomicTypeSpecifier, .typeQualifier,
   .functionSpecifier, .alignmentSpecifier, .declarator, .directDeclarator, .declaratorSuffix,
   .pointer, .typeQualifierList, .parameterTypeList, .parameterList, .parameterDeclaration,
   .identifierList, .typeName, .abstractDeclarator, .directAbstractDeclarator, .initializer,
   .initializerList, .designation, .designatorList, .designator, .staticAssertDeclaration,
   .statement, .labeledStatement, .compoundStatement, .blockItemList, .blockItem,
   .expressionStatement, .selectionStatement, .iterationStatement, .forCondition, .forDeclaration,
   .forExpression, .jumpStatement, .primaryExpression, .genericSelection, .genericAssocList,
   .genericAssociation, .postfixExpression, .argumentExpressionList, .unaryExpression,
   .unaryOperator, .castExpression, .multiplicativeExpression, .additiveExpression,
   .shiftExpression, .relationalExpression, .equalityExpression, .andExpression,
   .exclusiveOrExpression, .inclusiveOrExpression, .logicalAndExpression, .logicalOrExpression,
   .conditionalExpression, .assignmentExpression, .assignmentOperator, .expression,
   .constantExpression]

theorem mem_all (r : Rule) : r ∈ all := by cases r <;> decide

def name : Rule → String
  | .compilationUnit => "compilationUnit"
  | .translationUnit => "translationUnit"
  | .externalDeclaration => "externalDeclaration"
  | .functionDefinition => "functionDefinition"
  | .declarationList => "declarationList"
  | .declaration => "declaration"
  | .declarationSpecifiers => "declarationSpecifiers"
  | .declarationSpecifier => "declarationSpecifier"
  | .initDeclaratorList => "initDeclaratorList"
  | .initDeclarator => "initDeclarator"
  | .storageClassSpecifier => "storageClassSpecifier"
  | .typeSpecifier => "typeSpecifier"
  | .typedefName => "typedefName"
  | .structOrUnionSpecifier => "structOrUnionSpecifier"
  | .structOrUnion => "structOrUnion"
  | .structDeclarationList => "structDeclarationList"
  | .structDeclaration => "structDeclaration"
  | .specifierQualifierList => "specifierQualifierList"
  | .structDeclaratorList => "structDeclaratorList"
  | .structDeclarator => "structDeclarator"
  | .enumSpecifier => "enumSpecifier"
  | .enumeratorList => "enumeratorList"
  | .enumerator => "enumerator"
  | .enumerationConstant => "enumerationConstant"
  | .atomicTypeSpecifier => "atomicTypeSpecifier"
  | .typeQualifier => "typeQualifier"
  | .functionSpecifier => "functionSpecifier"
  | .alignmentSpecifier => "alignmentSpecifier"
  | .declarator => "declarator"
  | .directDeclarator => "directDeclarator"
  | .declaratorSuffix => "declaratorSuffix"
  | .pointer => "pointer"
  | .typeQualifierList => "typeQualifierList"
  | .parameterTypeList => "parameterTypeList"
  | .parameterList => "parameterList"
  | .parameterDeclaration => "parameterDeclaration"
  | .identifierList => "identifierList"
  | .typeName => "typeName"
  | .abstractDeclarator => "abstractDeclarator"
  | .directAbstractDeclarator => "directAbstractDeclarator"
  | .initializer => "initializer"
  | .initializerList => "initializerList"
  | .designation => "designation"
  | .designatorList => "designatorList"
  | .designator => "designator"
  | .staticAssertDeclaration => "staticAssertDeclaration"
  | .statement => "statement"
  | .labeledStatement => "labeledStatement"
  | .compoundStatement => "compoundStatement"
  | .blockItemList => "blockItemList"
  | .blockItem => "blockItem"
  | .expressionStatement => "expressionStatement"
  | .selectionStatement => "selectionStatement"
  | .iterationStatement => "iterationStatement"
  | .forCondition => "forCondition"
  | .forDeclaration => "forDeclaration"
  | .forExpression => "forExpression"
  | .jumpStatement => "jumpStatement"
  | .primaryExpression => "primaryExpression"
  | .genericSelection => "genericSelection"
  | .genericAssocList => "genericAssocList"
  | .genericAssociation => "genericAssociation"
  | .postfixExpression => "postfixExpression"
  | .argumentExpressionList => "argumentExpressionList"
  | .unaryExpression => "unaryExpression"
  | .unaryOperator => "unaryOperator"
  | .castExpression => "castExpression"
  | .multiplicativeExpression => "multiplicativeExpression"
  | .additiveExpression => "additiveExpression"
  | .shiftExpression => "shiftExpression"
  | .relationalExpression => "relationalExpression"
  | .equalityExpression => "equalityExpression"
  | .andExpression => "andExpression"
  | .exclusiveOrExpression => "exclusiveOrExpression"
  | .inclusiveOrExpression => "inclusiveOrExpression"
  | .logicalAndExpression => "logicalAndExpression"
  | .logicalOrExpression => "logicalOrExpression"
  | .conditionalExpression => "conditionalExpression"
  | .assignmentExpression => "assignmentExpression"
  | .assignmentOperator => "assignmentOperator"
  | .expression => "expression"
  | .constantExpression => "constantExpression"

section
open CTree.Grammar.Expr

/-- What a rule consists of. -/
def body : Rule → Expr Rule
  | .compilationUnit => nothing ++ opt (rule .translationUnit) ++ token .endOfInput
  | .translationUnit => oneOrMore (rule .externalDeclaration)
  | .externalDeclaration => rule .functionDefinition ||| rule .declaration ||| punct .semi
  | .functionDefinition =>
    opt (rule .declarationSpecifiers) ++ rule .declarator ++ opt (rule .declarationList) ++
      rule .compoundStatement
  | .declarationList => oneOrMore (rule .declaration)
  | .declaration =>
    rule .declarationSpecifiers ++ opt (rule .initDeclaratorList) ++ punct .semi |||
    rule .staticAssertDeclaration
  | .declarationSpecifiers => oneOrMore (rule .declarationSpecifier)
  | .declarationSpecifier =>
    rule .storageClassSpecifier ||| rule .typeSpecifier ||| rule .typeQualifier |||
    rule .functionSpecifier ||| rule .alignmentSpecifier
  | .initDeclaratorList => commaList (rule .initDeclarator)
  | .initDeclarator => rule .declarator ++ opt (punct .assign ++ rule .initializer)
  | .storageClassSpecifier =>
    word .kwTypedef ||| word .kwExtern ||| word .kwStatic ||| word .kwThreadLocal |||
    word .kwAuto ||| word .kwRegister
  | .typeSpecifier =>
    word .kwVoid ||| word .kwChar ||| word .kwShort ||| word .kwInt ||| word .kwLong |||
    word .kwFloat ||| word .kwDouble ||| word .kwSigned ||| word .kwUnsigned ||| word .kwBool |||
    word .kwComplex ||| rule .atomicTypeSpecifier ||| rule .structOrUnionSpecifier |||
    rule .enumSpecifier |||
    rule .typedefName ++ ahead (token .identifier ||| punct .star)
  | .typedefName => token .identifier
  | .structOrUnionSpecifier =>
    rule .structOrUnion ++
      (opt (token .identifier) ++ braced (rule .structDeclarationList) ||| token .identifier)
  | .structOrUnion => word .kwStruct ||| word .kwUnion
  | .structDeclarationList => oneOrMore (rule .structDeclaration)
  | .structDeclaration =>
    rule .specifierQualifierList ++ opt (rule .structDeclaratorList) ++ punct .semi |||
    rule .staticAssertDeclaration
  | .specifierQualifierList => oneOrMore (rule .typeSpecifier ||| rule .typeQualifier)
  | .structDeclaratorList => commaList (rule .structDeclarator)
  | .structDeclarator =>
    rule .declarator ++ opt (punct .colon ++ rule .constantExpression) |||
    punct .colon ++ rule .constantExpression
  | .enumSpecifier =>
    word .kwEnum ++
      (opt (token .identifier) ++ braced (rule .enumeratorList ++ opt (punct .comma)) |||
        token .identifier)
  | .enumeratorList => commaList (rule .enumerator)
  | .enumerator => rule .enumerationConstant ++ opt (punct .assign ++ rule .constantExpression)
  | .enumerationConstant => token .identifier
  | .atomicTypeSpecifier => word .kwAtomic ++ parenthesised (rule .typeName)
  | .typeQualifier => word .kwConst ||| word .kwRestrict ||| word .kwVolatile ||| word .kwAtomic
  | .functionSpecifier => word .kwInline ||| word .kwNoreturn
  | .alignmentSpecifier =>
    word .kwAlignas ++ parenthesised (rule .typeName ||| rule .constantExpression)
  | .declarator => opt (rule .pointer) ++ rule .directDeclarator
  | .directDeclarator =>
    (token .identifier ||| parenthesised (rule .declarator)) ++ many (rule .declaratorSuffix)
  | .declaratorSuffix =>
    bracketed (opt (word .kwStatic) ++ opt (rule .typeQualifierList) ++ opt (word .kwStatic) ++
      opt (rule .assignmentExpression)) |||
    bracketed (opt (rule .typeQualifierList) ++ punct .star) |||
    parenthesised (rule .parameterTypeList) |||
    parenthesised (opt (rule .identifierList))
  | .pointer => oneOrMore (punct .star ++ opt (rule .typeQualifierList))
  | .typeQualifierList => oneOrMore (rule .typeQualifier)
  | .parameterTypeList => rule .parameterList ++ opt (punct .comma ++ punct .ellipsis)
  | .parameterList => commaList (rule .parameterDeclaration)
  | .parameterDeclaration =>
    rule .declarationSpecifiers ++ opt (rule .declarator ||| rule .abstractDeclarator)
  | .identifierList => commaList (token .identifier)
  | .typeName => rule .specifierQualifierList ++ opt (rule .abstractDeclarator)
  | .abstractDeclarator =>
    rule .pointer ++ opt (rule .directAbstractDeclarator) |||
    rule .directAbstractDeclarator
  | .directAbstractDeclarator =>
    (parenthesised (rule .abstractDeclarator) ||| rule .declaratorSuffix) ++
    many (rule .declaratorSuffix)
  | .initializer =>
    braced (rule .initializerList ++ opt (punct .comma)) |||
    rule .assignmentExpression
  | .initializerList =>
    opt (rule .designation) ++ rule .initializer ++
      many (punct .comma ++ opt (rule .designation) ++ rule .initializer)
  | .designation => rule .designatorList ++ punct .assign
  | .designatorList => oneOrMore (rule .designator)
  | .designator => bracketed (rule .constantExpression) ||| punct .dot ++ token .identifier
  | .staticAssertDeclaration =>
    word .kwStaticAssert ++
      parenthesised
        (rule .constantExpression ++ punct .comma ++ oneOrMore (token .stringLiteral)) ++
      punct .semi
  | .statement =>
    rule .labeledStatement ||| rule .compoundStatement ||| rule .expressionStatement |||
    rule .selectionStatement ||| rule .iterationStatement ||| rule .jumpStatement
  | .labeledStatement =>
    token .identifier ++ punct .colon ++ rule .statement |||
    word .kwCase ++ rule .constantExpression ++ punct .colon ++ rule .statement |||
    word .kwDefault ++ punct .colon ++ rule .statement
  | .compoundStatement => braced (opt (rule .blockItemList))
  | .blockItemList => oneOrMore (rule .blockItem)
  | .blockItem => rule .declaration ||| rule .statement
  | .expressionStatement => opt (rule .expression) ++ punct .semi
  | .selectionStatement =>
    word .kwIf ++ parenthesised (rule .expression) ++ rule .statement ++
      opt (word .kwElse ++ rule .statement) |||
    word .kwSwitch ++ parenthesised (rule .expression) ++ rule .statement
  | .iterationStatement =>
    word .kwWhile ++ parenthesised (rule .expression) ++ rule .statement |||
    word .kwDo ++ rule .statement ++ word .kwWhile ++ parenthesised (rule .expression) ++
      punct .semi |||
    word .kwFor ++ parenthesised (rule .forCondition) ++ rule .statement
  | .forCondition =>
    opt (rule .forDeclaration ||| rule .expression) ++ punct .semi ++
      opt (rule .forExpression) ++ punct .semi ++ opt (rule .forExpression)
  | .forDeclaration => rule .declarationSpecifiers ++ opt (rule .initDeclaratorList)
  | .forExpression => commaList (rule .assignmentExpression)
  | .jumpStatement =>
    word .kwGoto ++ token .identifier ++ punct .semi |||
    word .kwContinue ++ punct .semi |||
    word .kwBreak ++ punct .semi |||
    word .kwReturn ++ opt (rule .expression) ++ punct .semi
  | .primaryExpression =>
    token .constant |||
    oneOrMore (token .stringLiteral) |||
    token .identifier |||
    parenthesised (rule .expression) |||
    rule .genericSelection
  | .genericSelection =>
    word .kwGeneric ++
      parenthesised (rule .assignmentExpression ++ punct .comma ++ rule .genericAssocList)
  | .genericAssocList => commaList (rule .genericAssociation)
  | .genericAssociation =>
    (rule .typeName ||| word .kwDefault) ++ punct .colon ++ rule .assignmentExpression
  | .postfixExpression =>
    (rule .primaryExpression |||
        parenthesised (rule .typeName) ++ braced (rule .initializerList ++ opt (punct .comma))) ++
      many
        (bracketed (rule .expression) |||
          parenthesised (opt (rule .argumentExpressionList)) |||
          (punct .dot ||| punct .arrow) ++ token .identifier |||
          punct .plusPlus |||
          punct .minusMinus)
  | .argumentExpressionList => commaList (rule .assignmentExpression)
  | .unaryExpression =>
    (punct .plusPlus ||| punct .minusMinus) ++ rule .unaryExpression |||
    (word .kwSizeof ||| word .kwAlignof) ++ parenthesised (rule .typeName) |||
    word .kwSizeof ++ rule .unaryExpression |||
    rule .unaryOperator ++ rule .castExpression |||
    rule .postfixExpression
  | .unaryOperator =>
    punct .and ||| punct .star ||| punct .plus ||| punct .minus ||| punct .tilde ||| punct .not
  | .castExpression =>
    parenthesised (rule .typeName) ++ rule .castExpression |||
    rule .unaryExpression
  | .multiplicativeExpression =>
    separated (punct .star ||| punct .div ||| punct .mod) (rule .castExpression)
  | .additiveExpression =>
    separated (punct .plus ||| punct .minus) (rule .multiplicativeExpression)
  | .shiftExpression =>
    separated (punct .leftShift ||| punct .rightShift) (rule .additiveExpression)
  | .relationalExpression =>
    separated (punct .lessEqual ||| punct .greaterEqual ||| punct .less ||| punct .greater)
      (rule .shiftExpression)
  | .equalityExpression =>
    separated (punct .equal ||| punct .notEqual) (rule .relationalExpression)
  | .andExpression => separated (punct .and) (rule .equalityExpression)
  | .exclusiveOrExpression => separated (punct .caret) (rule .andExpression)
  | .inclusiveOrExpression => separated (punct .or) (rule .exclusiveOrExpression)
  | .logicalAndExpression => separated (punct .andAnd) (rule .inclusiveOrExpression)
  | .logicalOrExpression => separated (punct .orOr) (rule .logicalAndExpression)
  | .conditionalExpression =>
    rule .logicalOrExpression ++
      opt (punct .question ++ rule .expression ++ punct .colon ++ rule .conditionalExpression)
  | .assignmentExpression =>
    rule .conditionalExpression ++ opt (rule .assignmentOperator ++ rule .assignmentExpression)
  | .assignmentOperator =>
    punct .assign ||| punct .starAssign ||| punct .divAssign ||| punct .modAssign |||
    punct .plusAssign ||| punct .minusAssign ||| punct .leftShiftAssign |||
    punct .rightShiftAssign ||| punct .andAssign ||| punct .xorAssign ||| punct .orAssign
  | .expression => commaList (rule .assignmentExpression)
  | .constantExpression => rule .conditionalExpression

end
end Rule
end CTree.Grammar
