import FluentShift.Source.Grammar
import FluentShift.Source.Shape

/-!
# FluentShift.Source.Rules - the grammar of the source language

The rules of modules, statements, expressions and patterns as one `Grammar`.  Shared beginnings are read once: an
expression is read first and then becomes the left side of an assignment, an item of a dictionary or an argument with
a comprehension by what stands after it (`Grammar.graft`), and `Shape` refuses the combinations without a meaning.
-/

namespace FluentShift.Source

/-- The named rules. -/
inductive Rule where
  | module | statement | simple | line | block | compound
  | assignmentLike | returnStmt | raiseStmt | delStmt | assertStmt | globalStmt | nonlocalStmt
  | importStmt | importFrom | importAlias | dotted | typeAlias
  | ifStmt | elifStmt | elseClause | whileStmt | forStmt | withStmt | withItem | tryStmt | handler | starHandler
  | finallyClause | decorators | funcDef | classDef | typeParams | typeParam
  | params | param | lambdaParams | lambdaParam
  | matchStmt | caseClause | patterns | pattern | closedPattern
  | namedExpr | expression | disjunction | conjunction | inversion | comparison
  | bitOr | bitXor | bitAnd | shift | sum | term | factor | power | awaited | primary | atom
  | arguments | positionalArg | keywordArg | starArg | doubleStarArg
  | slices | strings | template | field | paren | list | brace | braceItem | compFor | yieldExpr
  | starExpr | starExprs | starNamed | starNamedTuple | targets | target
  deriving DecidableEq, Repr

namespace Rule

open Grammar

/-- A left-associative chain of binary operators. -/
def leftAssoc (operand : Rule) (ops : List String) : Grammar Rule :=
  .chain (.rule operand) (.tree .binaryOp (.seq (oneOf ops) (.rule operand)))

/-- One item, or a tuple when commas follow. -/
def tupleOf (item : Rule) : Grammar Rule :=
  .graft (.rule item) (opt (.tree .tuple (.seq (tok ",") (opt (commas (.rule item))))))

/-- A suite after its colon. -/
def body : Grammar Rule := .seq (tok ":") (.rule .block)

/-- The right side of an assignment. -/
def assigned : Grammar Rule := .alt (.rule .yieldExpr) (.rule .starExprs)

/-- Checks the single tree that `g` reads. -/
def checked (ok : Tree → Bool) (g : Grammar Rule) : Grammar Rule :=
  .check (fun ts => ts.all ok) g

/-- The operators that assign after an operation. -/
def augmentedOperators : List String :=
  ["+=", "-=", "*=", "/=", "//=", "%=", "@=", "&=", "|=", "^=", ">>=", "<<=", "**="]

/-- The body of a parameter list; `p` reads one plain parameter and `star` the annotation of a starred one. -/
def paramItems (p : Rule) (star : Grammar Rule) : Grammar Rule :=
  checked Tree.isParameterList (.tree .params (commas (any
    [tok "/", .tree .dictParam (.seq (tok "**") (.seq (.want .name) (opt star))),
     .tree .starParam (.seq (tok "*") (.seq (.want .name) (opt star))), tok "*", .rule p])))

/-- An annotation after a name. -/
def hint (e : Rule) : Grammar Rule := .tree .hint (.seq (tok ":") (.rule e))

/-- What a rule reads. -/
def meaning : Rule → Grammar Rule
  -- modules and statements
  | .module => .tree .module (.seq (.many (.rule .statement)) (.want .done))
  | .statement => .alt (.rule .compound) (.rule .line)
  | .line => .tree .simpleLine (all
      [sepBy (.rule .simple) (tok ";"), opt (tok ";"), .want (.kind .endOfLine)])
  | .block => .alt
      (.tree .block (all [.want (.kind .endOfLine), .want .indent, some_ (.rule .statement), .want .dedent]))
      (.tree .suite (all [sepBy (.rule .simple) (tok ";"), opt (tok ";"), .want (.kind .endOfLine)]))
  | .simple => any
      [.rule .typeAlias, .rule .assignmentLike, .rule .returnStmt, .rule .importStmt, .rule .importFrom,
       .rule .raiseStmt, tok "pass", .rule .delStmt, .rule .assertStmt, tok "break", tok "continue",
       .rule .globalStmt, .rule .nonlocalStmt]
  | .assignmentLike => checked Tree.isAssignmentLike (.alt (.rule .yieldExpr) (.graft (.rule .starExprs) (opt (any
      [.tree .annAssign (.seq (hint .expression) (opt (.seq (tok "=") assigned))),
       .tree .assign (some_ (.seq (tok "=") assigned)),
       .tree .augAssign (.seq (oneOf augmentedOperators) assigned)]))))
  | .returnStmt => .tree .returnStmt (.seq (tok "return") (opt (.rule .starExprs)))
  | .raiseStmt => .tree .raiseStmt (.seq (tok "raise")
      (opt (.seq (.rule .expression) (opt (.seq (tok "from") (.rule .expression))))))
  | .delStmt => checked (fun t => t.elements.all Tree.isDeletable)
      (.tree .delStmt (.seq (tok "del") (.rule .targets)))
  | .assertStmt => .tree .assertStmt (.seq (tok "assert")
      (.seq (.rule .expression) (opt (.seq (tok ",") (.rule .expression)))))
  | .globalStmt => .tree .globalStmt (.seq (tok "global") (sepBy (.want .name) (tok ",")))
  | .nonlocalStmt => .tree .nonlocalStmt (.seq (tok "nonlocal") (sepBy (.want .name) (tok ",")))
  | .importStmt => .tree .importStmt (.seq (tok "import") (sepBy
      (.tree .importAlias (.seq (.rule .dotted) (opt (.seq (tok "as") (.want .name))))) (tok ",")))
  | .importFrom => .tree .importFrom (all
      [tok "from",
       .alt (.seq (.many (oneOf [".", "..."])) (.rule .dotted)) (some_ (oneOf [".", "..."])),
       tok "import",
       any [tok "*", all [tok "(", commas (.rule .importAlias), tok ")"],
            .seq (sepBy (.rule .importAlias) (tok ",")) (.notAhead (tok ","))]])
  | .importAlias => .tree .importAlias (.seq (.want .name) (opt (.seq (tok "as") (.want .name))))
  | .dotted => .graft (.want .name) (opt (.tree .dotted (some_ (.seq (tok ".") (.want .name)))))
  | .typeAlias => .tree .typeAlias (all
      [.want (.soft "type"), .want .name, opt (.rule .typeParams), tok "=", .rule .expression])
  -- compound statements
  | .compound => any
      [.rule .ifStmt, .rule .whileStmt, .rule .forStmt, .rule .withStmt, .rule .tryStmt, .rule .funcDef,
       .rule .classDef, .rule .matchStmt]
  | .ifStmt => .tree .ifStmt (all
      [tok "if", .rule .namedExpr, body, opt (.alt (.rule .elifStmt) (.rule .elseClause))])
  | .elifStmt => .tree .ifStmt (all
      [tok "elif", .rule .namedExpr, body, opt (.alt (.rule .elifStmt) (.rule .elseClause))])
  | .elseClause => .tree .elseClause (.seq (tok "else") body)
  | .whileStmt => .tree .whileStmt (all [tok "while", .rule .namedExpr, body, opt (.rule .elseClause)])
  | .forStmt => .tree .forStmt (all
      [opt (tok "async"), tok "for", .rule .targets, tok "in", .rule .starExprs, body, opt (.rule .elseClause)])
  | .withStmt => .tree .withStmt (all
      [opt (tok "async"), tok "with",
       .alt (all [tok "(", commas (.rule .withItem), tok ")", .ahead (tok ":")]) (sepBy (.rule .withItem) (tok ",")),
       body])
  | .withItem => .tree .withItem (.seq (.rule .expression) (opt (.seq (tok "as")
      (checked Tree.isTarget (.rule .target)))))
  | .tryStmt => .tree .tryStmt (all [tok "try", body, any
      [all [some_ (.rule .handler), opt (.rule .elseClause), opt (.rule .finallyClause)],
       all [some_ (.rule .starHandler), opt (.rule .elseClause), opt (.rule .finallyClause)],
       .rule .finallyClause]])
  | .handler => .tree .handler (all [tok "except",
      opt (.seq (.rule .expression) (opt (.seq (tok "as") (.want .name)))), body])
  | .starHandler => .tree .handler (all [tok "except", tok "*", .rule .expression,
      opt (.seq (tok "as") (.want .name)), body])
  | .finallyClause => .tree .finallyClause (.seq (tok "finally") body)
  | .decorators => .many (.tree .decorator (all [tok "@", .rule .namedExpr, .want (.kind .endOfLine)]))
  | .funcDef => .tree .funcDef (all
      [.rule .decorators, opt (tok "async"), tok "def", .want .name, opt (.rule .typeParams), tok "(",
       opt (.rule .params), tok ")", opt (.tree .returns (.seq (tok "->") (.rule .expression))), body])
  | .classDef => checked Tree.isArgumentList (.tree .classDef (all
      [.rule .decorators, tok "class", .want .name, opt (.rule .typeParams),
       opt (all [tok "(", opt (.rule .arguments), tok ")"]), body]))
  | .typeParams => .tree .typeParams (all [tok "[", commas (.rule .typeParam), tok "]"])
  | .typeParam => .tree .typeParam (all [opt (.alt (tok "**") (tok "*")), .want .name,
      opt (.seq (tok ":") (.rule .expression)), opt (.seq (tok "=") (.rule .starExpr))])
  | .params => paramItems .param (hint .starExpr)
  | .param => .tree .param (all [.want .name, opt (hint .expression), opt (.seq (tok "=") (.rule .expression))])
  | .lambdaParams => paramItems .lambdaParam (.notAhead .nothing)
  | .lambdaParam => .tree .param (.seq (.want .name) (opt (.seq (tok "=") (.rule .expression))))
  -- patterns
  | .matchStmt => .tree .matchStmt (all [.want (.soft "match"), .rule .starNamedTuple, tok ":",
      .want (.kind .endOfLine), .want .indent, some_ (.rule .caseClause), .want .dedent])
  | .caseClause => .tree .caseClause (all [.want (.soft "case"), .rule .patterns,
      opt (.tree .guard (.seq (tok "if") (.rule .namedExpr))), body])
  | .patterns => .graft (.rule .pattern)
      (opt (.tree .pattern (.seq (tok ",") (opt (commas (.rule .pattern))))))
  | .pattern => .alt (.tree .pattern (.seq (tok "*") (.alt (.want (.soft "_")) (.want .name))))
      (.graft (.graft (.rule .closedPattern) (opt (.tree .pattern (some_ (.seq (tok "|") (.rule .closedPattern))))))
        (opt (.tree .pattern (.seq (tok "as") (.want .name)))))
  | .closedPattern => any
      [.tree .pattern (.seq (.want (.soft "_")) (.notAhead (oneOf [".", "("]))),
       .graft (.chain (.want .name) (.tree .attribute (.seq (tok ".") (.want .name)))) (opt (.tree .pattern (all
         [tok "(", opt (commas (.alt (.tree .pattern (all [.want .name, tok "=", .rule .pattern])) (.rule .pattern))),
          tok ")"]))),
       .want .constant, .rule .strings,
       .graft (.alt (.tree .unaryOp (.seq (tok "-") numeral)) numeral)
         (opt (.tree .binaryOp (.seq (oneOf ["+", "-"]) numeral))),
       .tree .pattern (all [tok "(", opt (commas (.rule .pattern)), tok ")"]),
       .tree .pattern (all [tok "[", opt (commas (.rule .pattern)), tok "]"]),
       .tree .pattern (all [tok "\x7b", opt (commas (.alt (.seq (tok "**") (.want .name))
         (all [.rule .closedPattern, tok ":", .rule .pattern]))), tok "\x7d"])]
  -- expressions
  | .namedExpr => .alt
      (.seq (.ahead (.seq (.want .name) (tok ":=")))
        (.tree .walrus (all [.want .name, tok ":=", .rule .expression])))
      (.rule .expression)
  | .expression => .alt
      (.tree .lambda (all [tok "lambda", opt (.rule .lambdaParams), tok ":", .rule .expression]))
      (.graft (.rule .disjunction) (opt (.tree .ifExp (all
        [tok "if", .rule .disjunction, tok "else", .rule .expression]))))
  | .disjunction => .chain (.rule .conjunction) (.tree .boolOp (.seq (tok "or") (.rule .conjunction)))
  | .conjunction => .chain (.rule .inversion) (.tree .boolOp (.seq (tok "and") (.rule .inversion)))
  | .inversion => .alt (.tree .unaryOp (.seq (tok "not") (.rule .inversion))) (.rule .comparison)
  | .comparison => .graft (.rule .bitOr) (opt (.tree .comparison (some_ (.seq
      (any [oneOf ["==", "!=", "<=", "<", ">=", ">", "in"], .seq (tok "not") (tok "in"),
            .seq (tok "is") (opt (tok "not"))])
      (.rule .bitOr)))))
  | .bitOr => leftAssoc .bitXor ["|"]
  | .bitXor => leftAssoc .bitAnd ["^"]
  | .bitAnd => leftAssoc .shift ["&"]
  | .shift => leftAssoc .sum ["<<", ">>"]
  | .sum => leftAssoc .term ["+", "-"]
  | .term => leftAssoc .factor ["*", "/", "//", "%", "@"]
  | .factor => .alt (.tree .unaryOp (.seq (oneOf ["+", "-", "~"]) (.rule .factor))) (.rule .power)
  | .power => .graft (.rule .awaited) (opt (.tree .binaryOp (.seq (tok "**") (.rule .factor))))
  | .awaited => .alt (.tree .awaitExpr (.seq (tok "await") (.rule .primary))) (.rule .primary)
  | .primary => .chain (.rule .atom) (any
      [.tree .attribute (.seq (tok ".") (.want .name)),
       checked Tree.isArgumentList (.tree .call (all [tok "(", opt (.rule .arguments), tok ")"])),
       .tree .subscript (all [tok "[", .rule .slices, tok "]"])])
  | .atom => any
      [.want .name, .want .constant, .rule .strings, numeral, .rule .paren, .rule .list, .rule .brace, tok "..."]
  | .arguments => .seq
      (.alt (.seq (sepBy (.rule .positionalArg) (tok ",")) (opt (.seq (tok ",") named))) named)
      (opt (tok ","))
  | .positionalArg => .seq (.tree .argument (.alt (.seq (tok "*") (.rule .expression))
      (.graft (.rule .namedExpr) (opt (.tree .generator (.rule .compFor)))))) (.notAhead (tok "="))
  | .keywordArg => .tree .argument (all [.want .name, tok "=", .rule .expression])
  | .starArg => .tree .argument (.seq (tok "*") (.rule .expression))
  | .doubleStarArg => .tree .argument (.seq (tok "**") (.rule .expression))
  | .slices => commas (.alt (.rule .starExpr |> starOnly) (.alt sliceTail
      (.graft (.rule .namedExpr) (opt sliceTail))))
  | .strings => .graft str (opt (.tree .concatenation (some_ str)))
  | .template => .tree .template (all [.want (.kind .templateOpen),
      .many (.alt (.want (.kind .fragment)) (.rule .field)), .want (.kind .templateClose)])
  | .field => .tree .field (all [tok "\x7b", assigned, opt (tok "="),
      opt (.seq (tok "!") (.want .letter)),
      opt (.seq (tok ":") (.many (.alt (.want (.kind .fragment)) (.rule .field)))), tok "\x7d"])
  | .paren => checked Tree.isParenBody (.tree .paren (all [tok "(",
      opt (.alt (.rule .yieldExpr) (.graft (.rule .starNamed) (opt (.alt (.tree .generator (.rule .compFor))
        (.tree .tuple (.seq (tok ",") (opt (commas (.rule .starNamed))))))))), tok ")"]))
  | .list => checked Tree.isListBody (.tree .list (all [tok "[", opt (.seq (.rule .starNamed)
      (.alt (.rule .compFor) (.seq (.many (.seq (tok ",") (.rule .starNamed))) (opt (tok ","))))), tok "]"]))
  | .brace => checked Tree.isBraceBody (.tree .brace (all [tok "\x7b", opt (.seq (.rule .braceItem)
      (.alt (.rule .compFor) (.seq (.many (.seq (tok ",") (.rule .braceItem))) (opt (tok ","))))), tok "\x7d"]))
  | .braceItem => any
      [.tree .doubleStarred (.seq (tok "**") (.rule .bitOr)), .tree .starred (.seq (tok "*") (.rule .bitOr)),
       .graft (.rule .namedExpr) (opt (.tree .dictItem (.seq (tok ":") (.rule .expression))))]
  | .compFor => .tree .compFor (all [opt (tok "async"), tok "for", .rule .targets, tok "in", .rule .disjunction,
      .many (.tree .compIf (.seq (tok "if") (.rule .disjunction))), opt (.rule .compFor)])
  | .yieldExpr => .tree .yieldExpr (.seq (tok "yield")
      (.alt (.seq (tok "from") (.rule .expression)) (opt (.rule .starExprs))))
  | .starExpr => .alt (.tree .starred (.seq (tok "*") (.rule .bitOr))) (.rule .expression)
  | .starExprs => tupleOf .starExpr
  | .starNamed => .alt (.tree .starred (.seq (tok "*") (.rule .bitOr))) (.rule .namedExpr)
  | .starNamedTuple => tupleOf .starNamed
  | .targets => checked Tree.isTarget (tupleOf .target)
  | .target => .alt (.tree .starred (.seq (tok "*") (.rule .primary))) (.rule .primary)
where
  /-- A number of any kind. -/
  numeral : Grammar Rule :=
    any [.want (.kind .integer), .want (.kind .real), .want (.kind .imaginary)]
  /-- A string or a template string. -/
  str : Grammar Rule := .alt (.want (.kind .string)) (.rule .template)
  /-- A slice after its lower bound. -/
  sliceTail : Grammar Rule :=
    .tree .slice (all [tok ":", opt (.rule .expression), opt (.seq (tok ":") (opt (.rule .expression)))])
  /-- Only a starred expression. -/
  starOnly (g : Grammar Rule) : Grammar Rule := .seq (.ahead (tok "*")) g
  /-- Arguments by name and by star, then by name and by double star. -/
  named : Grammar Rule :=
    .alt (.seq (sepBy (.alt (.rule .keywordArg) (.rule .starArg)) (tok ","))
        (opt (.seq (tok ",") (sepBy (.alt (.rule .keywordArg) (.rule .doubleStarArg)) (tok ",")))))
      (sepBy (.alt (.rule .keywordArg) (.rule .doubleStarArg)) (tok ","))

end Rule

end FluentShift.Source
