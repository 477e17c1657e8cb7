/-!
Kinds of tokens and nodes. Every kind has a code; the codes of one family are consecutive, so the
families are intervals of codes.
-/

namespace Lintel

inductive Kind where
  | whitespace | newline | lineComment | blockComment | docComment | directive
  | abstractKw | asKw | baseKw | boolKw | breakKw | byteKw | caseKw | catchKw | charKw
  | checkedKw | classKw | constKw | continueKw | decimalKw | defaultKw | delegateKw | doKw
  | doubleKw | elseKw | enumKw | eventKw | explicitKw | externKw | falseKw | finallyKw | fixedKw
  | floatKw | forKw | foreachKw | gotoKw | ifKw | implicitKw | inKw | intKw | interfaceKw
  | internalKw | isKw | lockKw | longKw | namespaceKw | newKw | nullKw | objectKw | operatorKw
  | outKw | overrideKw | paramsKw | privateKw | protectedKw | publicKw | readonlyKw | refKw
  | returnKw | sbyteKw | sealedKw | shortKw | sizeofKw | stackallocKw | staticKw | stringKw
  | structKw | switchKw | thisKw | throwKw | trueKw | tryKw | typeofKw | uintKw | ulongKw
  | uncheckedKw | unsafeKw | ushortKw | usingKw | virtualKw | voidKw | volatileKw | whileKw
  | addKw | ascendingKw | asyncKw | awaitKw | byKw | descendingKw | equalsKw | fromKw | getKw
  | groupKw | initKw | intoKw | joinKw | letKw | nameofKw | onKw | orderbyKw | partialKw
  | removeKw | selectKw | setKw | whereKw | yieldKw
  | lBrace | rBrace | lParen | rParen | lBracket | rBracket | semicolon | comma | dot | colon
  | colonColon | question | questionDot | questionQuestion | questionQuestionEq | fatArrow | eq
  | eqEq | bang | bangEq | lt | gt | ltEq | gtEq | plus | minus | star | slash | percent | amp
  | ampAmp | pipe | pipePipe | caret | tilde | plusPlus | minusMinus | plusEq | minusEq | starEq
  | slashEq | percentEq | ampEq | pipeEq | caretEq | shl | shlEq | arrow
  | ident | intLiteral | realLiteral | stringLiteral | charLiteral | eof | error
  | compilationUnit | usingDirective | namespaceDecl | fileScopedNamespaceDecl | classDecl
  | structDecl | interfaceDecl | enumDecl | enumMember | delegateDecl | fieldDecl
  | eventFieldDecl | methodDecl | constructorDecl | constructorInitializer | destructorDecl
  | propertyDecl | indexerDecl | eventDecl | accessorList | accessor | arrowExprClause
  | parameterList | bracketedParameterList | parameter | typeParameterList | typeParameter
  | constraintClause | baseList | attributeList | attr
  | predefinedType | nameType | qualifiedType | genericType | typeArgumentList | arrayType
  | arrayRank | nullableType | pointerType
  | block | localDeclStmt | variableDecl | variableDeclarator | equalsValueClause | exprStmt
  | ifStmt | elseClause | whileStmt | doStmt | forStmt | foreachStmt | returnStmt | throwStmt
  | breakStmt | continueStmt | usingStmt | lockStmt | fixedStmt | switchStmt | switchSection
  | caseLabel | defaultLabel | gotoStmt | gotoCaseStmt | gotoDefaultStmt | tryStmt | catchClause
  | catchDecl | finallyClause | checkedStmt | yieldReturnStmt | yieldBreakStmt | emptyStmt
  | parenExpr | binaryExpr | assignmentExpr | prefixUnaryExpr | postfixUnaryExpr | castExpr
  | conditionalExpr | isExpr | asExpr | coalesceExpr | simpleLambdaExpr | parenLambdaExpr
  | arrayCreationExpr | implicitArrayCreationExpr | stackallocExpr | objectCreationExpr
  | implicitObjectCreationExpr | initializerExpr | queryExpr | fromClause | whereClause
  | letClause | joinClause | orderByClause | ordering | selectClause | groupClause
  | queryContinuation | awaitExpr | nameExpr | genericNameExpr | memberAccessExpr
  | conditionalAccessExpr | invocationExpr | argumentList | argument | elementAccessExpr
  | bracketedArgumentList | literalExpr | thisExpr | baseExpr | typeofExpr | sizeofExpr
  | nameofExpr | defaultExpr | defaultLiteralExpr | checkedExpr | predefinedTypeExpr
  | parenPattern
  deriving DecidableEq, Inhabited

namespace Kind

def all : List Kind := [
  .whitespace, .newline, .lineComment, .blockComment, .docComment, .directive, .abstractKw,
  .asKw, .baseKw, .boolKw, .breakKw, .byteKw, .caseKw, .catchKw, .charKw, .checkedKw, .classKw,
  .constKw, .continueKw, .decimalKw, .defaultKw, .delegateKw, .doKw, .doubleKw, .elseKw,
  .enumKw, .eventKw, .explicitKw, .externKw, .falseKw, .finallyKw, .fixedKw, .floatKw, .forKw,
  .foreachKw, .gotoKw, .ifKw, .implicitKw, .inKw, .intKw, .interfaceKw, .internalKw, .isKw,
  .lockKw, .longKw, .namespaceKw, .newKw, .nullKw, .objectKw, .operatorKw, .outKw, .overrideKw,
  .paramsKw, .privateKw, .protectedKw, .publicKw, .readonlyKw, .refKw, .returnKw, .sbyteKw,
  .sealedKw, .shortKw, .sizeofKw, .stackallocKw, .staticKw, .stringKw, .structKw, .switchKw,
  .thisKw, .throwKw, .trueKw, .tryKw, .typeofKw, .uintKw, .ulongKw, .uncheckedKw, .unsafeKw,
  .ushortKw, .usingKw, .virtualKw, .voidKw, .volatileKw, .whileKw, .addKw, .ascendingKw,
  .asyncKw, .awaitKw, .byKw, .descendingKw, .equalsKw, .fromKw, .getKw, .groupKw, .initKw,
  .intoKw, .joinKw, .letKw, .nameofKw, .onKw, .orderbyKw, .partialKw, .removeKw, .selectKw,
  .setKw, .whereKw, .yieldKw, .lBrace, .rBrace, .lParen, .rParen, .lBracket, .rBracket,
  .semicolon, .comma, .dot, .colon, .colonColon, .question, .questionDot, .questionQuestion,
  .questionQuestionEq, .fatArrow, .eq, .eqEq, .bang, .bangEq, .lt, .gt, .ltEq, .gtEq, .plus,
  .minus, .star, .slash, .percent, .amp, .ampAmp, .pipe, .pipePipe, .caret, .tilde, .plusPlus,
  .minusMinus, .plusEq, .minusEq, .starEq, .slashEq, .percentEq, .ampEq, .pipeEq, .caretEq,
  .shl, .shlEq, .arrow, .ident, .intLiteral, .realLiteral, .stringLiteral, .charLiteral, .eof,
  .error, .compilationUnit, .usingDirective, .namespaceDecl, .fileScopedNamespaceDecl,
  .classDecl, .structDecl, .interfaceDecl, .enumDecl, .enumMember, .delegateDecl, .fieldDecl,
  .eventFieldDecl, .methodDecl, .constructorDecl, .constructorInitializer, .destructorDecl,
  .propertyDecl, .indexerDecl, .eventDecl, .accessorList, .accessor, .arrowExprClause,
  .parameterList, .bracketedParameterList, .parameter, .typeParameterList, .typeParameter,
  .constraintClause, .baseList, .attributeList, .attr, .predefinedType, .nameType,
  .qualifiedType, .genericType, .typeArgumentList, .arrayType, .arrayRank, .nullableType,
  .pointerType, .block, .localDeclStmt, .variableDecl, .variableDeclarator, .equalsValueClause,
  .exprStmt, .ifStmt, .elseClause, .whileStmt, .doStmt, .forStmt, .foreachStmt, .returnStmt,
  .throwStmt, .breakStmt, .continueStmt, .usingStmt, .lockStmt, .fixedStmt, .switchStmt,
  .switchSection, .caseLabel, .defaultLabel, .gotoStmt, .gotoCaseStmt, .gotoDefaultStmt,
  .tryStmt, .catchClause, .catchDecl, .finallyClause, .checkedStmt, .yieldReturnStmt,
  .yieldBreakStmt, .emptyStmt, .parenExpr, .binaryExpr, .assignmentExpr, .prefixUnaryExpr,
  .postfixUnaryExpr, .castExpr, .conditionalExpr, .isExpr, .asExpr, .coalesceExpr,
  .simpleLambdaExpr, .parenLambdaExpr, .arrayCreationExpr, .implicitArrayCreationExpr,
  .stackallocExpr, .objectCreationExpr, .implicitObjectCreationExpr, .initializerExpr,
  .queryExpr, .fromClause, .whereClause, .letClause, .joinClause, .orderByClause, .ordering,
  .selectClause, .groupClause, .queryContinuation, .awaitExpr, .nameExpr, .genericNameExpr,
  .memberAccessExpr, .conditionalAccessExpr, .invocationExpr, .argumentList, .argument,
  .elementAccessExpr, .bracketedArgumentList, .literalExpr, .thisExpr, .baseExpr, .typeofExpr,
  .sizeofExpr, .nameofExpr, .defaultExpr, .defaultLiteralExpr, .checkedExpr,
  .predefinedTypeExpr, .parenPattern]

theorem all_eq : all = (List.range 284).map ofNat := by
  decide +kernel

theorem ctorIdx_lt (k : Kind) : k.ctorIdx < 284 := by
  cases k <;> exact Nat.le_of_ble_eq_true rfl

theorem mem_all (k : Kind) : k ∈ all := by
  rw [all_eq]
  exact List.mem_map.mpr ⟨k.ctorIdx, List.mem_range.mpr k.ctorIdx_lt, k.ofNat_ctorIdx⟩

def code : Kind → Nat
  | .whitespace => 0 | .newline => 1 | .lineComment => 2 | .blockComment => 3 | .docComment => 4
  | .directive => 5 | .abstractKw => 10 | .asKw => 11 | .baseKw => 12 | .boolKw => 13
  | .breakKw => 14 | .byteKw => 15 | .caseKw => 16 | .catchKw => 17 | .charKw => 18
  | .checkedKw => 19 | .classKw => 20 | .constKw => 21 | .continueKw => 22 | .decimalKw => 23
  | .defaultKw => 24 | .delegateKw => 25 | .doKw => 26 | .doubleKw => 27 | .elseKw => 28
  | .enumKw => 29 | .eventKw => 30 | .explicitKw => 31 | .externKw => 32 | .falseKw => 33
  | .finallyKw => 34 | .fixedKw => 35 | .floatKw => 36 | .forKw => 37 | .foreachKw => 38
  | .gotoKw => 39 | .ifKw => 40 | .implicitKw => 41 | .inKw => 42 | .intKw => 43
  | .interfaceKw => 44 | .internalKw => 45 | .isKw => 46 | .lockKw => 47 | .longKw => 48
  | .namespaceKw => 49 | .newKw => 50 | .nullKw => 51 | .objectKw => 52 | .operatorKw => 53
  | .outKw => 54 | .overrideKw => 55 | .paramsKw => 56 | .privateKw => 57 | .protectedKw => 58
  | .publicKw => 59 | .readonlyKw => 60 | .refKw => 61 | .returnKw => 62 | .sbyteKw => 63
  | .sealedKw => 64 | .shortKw => 65 | .sizeofKw => 66 | .stackallocKw => 67 | .staticKw => 68
  | .stringKw => 69 | .structKw => 70 | .switchKw => 71 | .thisKw => 72 | .throwKw => 73
  | .trueKw => 74 | .tryKw => 75 | .typeofKw => 76 | .uintKw => 77 | .ulongKw => 78
  | .uncheckedKw => 79 | .unsafeKw => 80 | .ushortKw => 81 | .usingKw => 82 | .virtualKw => 83
  | .voidKw => 84 | .volatileKw => 85 | .whileKw => 86 | .addKw => 120 | .ascendingKw => 121
  | .asyncKw => 122 | .awaitKw => 123 | .byKw => 124 | .descendingKw => 125 | .equalsKw => 126
  | .fromKw => 127 | .getKw => 128 | .groupKw => 129 | .initKw => 130 | .intoKw => 131
  | .joinKw => 132 | .letKw => 133 | .nameofKw => 134 | .onKw => 135 | .orderbyKw => 136
  | .partialKw => 137 | .removeKw => 138 | .selectKw => 139 | .setKw => 140 | .whereKw => 141
  | .yieldKw => 142 | .lBrace => 200 | .rBrace => 201 | .lParen => 202 | .rParen => 203
  | .lBracket => 204 | .rBracket => 205 | .semicolon => 206 | .comma => 207 | .dot => 208
  | .colon => 209 | .colonColon => 210 | .question => 211 | .questionDot => 212
  | .questionQuestion => 213 | .questionQuestionEq => 214 | .fatArrow => 215 | .eq => 216
  | .eqEq => 217 | .bang => 218 | .bangEq => 219 | .lt => 220 | .gt => 221 | .ltEq => 222
  | .gtEq => 223 | .plus => 224 | .minus => 225 | .star => 226 | .slash => 227 | .percent => 228
  | .amp => 229 | .ampAmp => 230 | .pipe => 231 | .pipePipe => 232 | .caret => 233
  | .tilde => 234 | .plusPlus => 235 | .minusMinus => 236 | .plusEq => 237 | .minusEq => 238
  | .starEq => 239 | .slashEq => 240 | .percentEq => 241 | .ampEq => 242 | .pipeEq => 243
  | .caretEq => 244 | .shl => 245 | .shlEq => 246 | .arrow => 247 | .ident => 300
  | .intLiteral => 301 | .realLiteral => 302 | .stringLiteral => 303 | .charLiteral => 304
  | .eof => 348 | .error => 349 | .compilationUnit => 400 | .usingDirective => 401
  | .namespaceDecl => 402 | .fileScopedNamespaceDecl => 403 | .classDecl => 404
  | .structDecl => 405 | .interfaceDecl => 406 | .enumDecl => 407 | .enumMember => 408
  | .delegateDecl => 409 | .fieldDecl => 410 | .eventFieldDecl => 411 | .methodDecl => 412
  | .constructorDecl => 413 | .constructorInitializer => 414 | .destructorDecl => 415
  | .propertyDecl => 416 | .indexerDecl => 417 | .eventDecl => 418 | .accessorList => 419
  | .accessor => 420 | .arrowExprClause => 421 | .parameterList => 422
  | .bracketedParameterList => 423 | .parameter => 424 | .typeParameterList => 425
  | .typeParameter => 426 | .constraintClause => 427 | .baseList => 428 | .attributeList => 429
  | .attr => 430 | .predefinedType => 470 | .nameType => 471 | .qualifiedType => 472
  | .genericType => 473 | .typeArgumentList => 474 | .arrayType => 475 | .arrayRank => 476
  | .nullableType => 477 | .pointerType => 478 | .block => 500 | .localDeclStmt => 501
  | .variableDecl => 502 | .variableDeclarator => 503 | .equalsValueClause => 504
  | .exprStmt => 505 | .ifStmt => 506 | .elseClause => 507 | .whileStmt => 508 | .doStmt => 509
  | .forStmt => 510 | .foreachStmt => 511 | .returnStmt => 512 | .throwStmt => 513
  | .breakStmt => 514 | .continueStmt => 515 | .usingStmt => 516 | .lockStmt => 517
  | .fixedStmt => 518 | .switchStmt => 519 | .switchSection => 520 | .caseLabel => 521
  | .defaultLabel => 522 | .gotoStmt => 523 | .gotoCaseStmt => 524 | .gotoDefaultStmt => 525
  | .tryStmt => 526 | .catchClause => 527 | .catchDecl => 528 | .finallyClause => 529
  | .checkedStmt => 530 | .yieldReturnStmt => 531 | .yieldBreakStmt => 532 | .emptyStmt => 533
  | .parenExpr => 550 | .binaryExpr => 551 | .assignmentExpr => 552 | .prefixUnaryExpr => 553
  | .postfixUnaryExpr => 554 | .castExpr => 555 | .conditionalExpr => 556 | .isExpr => 557
  | .asExpr => 558 | .coalesceExpr => 559 | .simpleLambdaExpr => 560 | .parenLambdaExpr => 561
  | .arrayCreationExpr => 562 | .implicitArrayCreationExpr => 563 | .stackallocExpr => 564
  | .objectCreationExpr => 565 | .implicitObjectCreationExpr => 566 | .initializerExpr => 567
  | .queryExpr => 568 | .fromClause => 569 | .whereClause => 570 | .letClause => 571
  | .joinClause => 572 | .orderByClause => 573 | .ordering => 574 | .selectClause => 575
  | .groupClause => 576 | .queryContinuation => 577 | .awaitExpr => 578 | .nameExpr => 579
  | .genericNameExpr => 580 | .memberAccessExpr => 581 | .conditionalAccessExpr => 582
  | .invocationExpr => 583 | .argumentList => 584 | .argument => 585 | .elementAccessExpr => 586
  | .bracketedArgumentList => 587 | .literalExpr => 588 | .thisExpr => 589 | .baseExpr => 590
  | .typeofExpr => 591 | .sizeofExpr => 592 | .nameofExpr => 593 | .defaultExpr => 594
  | .defaultLiteralExpr => 595 | .checkedExpr => 596 | .predefinedTypeExpr => 597
  | .parenPattern => 598

def name : Kind → String
  | .whitespace => "Whitespace" | .newline => "Newline" | .lineComment => "LineComment"
  | .blockComment => "BlockComment" | .docComment => "DocComment" | .directive => "Directive"
  | .abstractKw => "AbstractKw" | .asKw => "AsKw" | .baseKw => "BaseKw" | .boolKw => "BoolKw"
  | .breakKw => "BreakKw" | .byteKw => "ByteKw" | .caseKw => "CaseKw" | .catchKw => "CatchKw"
  | .charKw => "CharKw" | .checkedKw => "CheckedKw" | .classKw => "ClassKw"
  | .constKw => "ConstKw" | .continueKw => "ContinueKw" | .decimalKw => "DecimalKw"
  | .defaultKw => "DefaultKw" | .delegateKw => "DelegateKw" | .doKw => "DoKw"
  | .doubleKw => "DoubleKw" | .elseKw => "ElseKw" | .enumKw => "EnumKw" | .eventKw => "EventKw"
  | .explicitKw => "ExplicitKw" | .externKw => "ExternKw" | .falseKw => "FalseKw"
  | .finallyKw => "FinallyKw" | .fixedKw => "FixedKw" | .floatKw => "FloatKw"
  | .forKw => "ForKw" | .foreachKw => "ForeachKw" | .gotoKw => "GotoKw" | .ifKw => "IfKw"
  | .implicitKw => "ImplicitKw" | .inKw => "InKw" | .intKw => "IntKw"
  | .interfaceKw => "InterfaceKw" | .internalKw => "InternalKw" | .isKw => "IsKw"
  | .lockKw => "LockKw" | .longKw => "LongKw" | .namespaceKw => "NamespaceKw"
  | .newKw => "NewKw" | .nullKw => "NullKw" | .objectKw => "ObjectKw"
  | .operatorKw => "OperatorKw" | .outKw => "OutKw" | .overrideKw => "OverrideKw"
  | .paramsKw => "ParamsKw" | .privateKw => "PrivateKw" | .protectedKw => "ProtectedKw"
  | .publicKw => "PublicKw" | .readonlyKw => "ReadonlyKw" | .refKw => "RefKw"
  | .returnKw => "ReturnKw" | .sbyteKw => "SbyteKw" | .sealedKw => "SealedKw"
  | .shortKw => "ShortKw" | .sizeofKw => "SizeofKw" | .stackallocKw => "StackallocKw"
  | .staticKw => "StaticKw" | .stringKw => "StringKw" | .structKw => "StructKw"
  | .switchKw => "SwitchKw" | .thisKw => "ThisKw" | .throwKw => "ThrowKw" | .trueKw => "TrueKw"
  | .tryKw => "TryKw" | .typeofKw => "TypeofKw" | .uintKw => "UintKw" | .ulongKw => "UlongKw"
  | .uncheckedKw => "UncheckedKw" | .unsafeKw => "UnsafeKw" | .ushortKw => "UshortKw"
  | .usingKw => "UsingKw" | .virtualKw => "VirtualKw" | .voidKw => "VoidKw"
  | .volatileKw => "VolatileKw" | .whileKw => "WhileKw" | .addKw => "AddKw"
  | .ascendingKw => "AscendingKw" | .asyncKw => "AsyncKw" | .awaitKw => "AwaitKw"
  | .byKw => "ByKw" | .descendingKw => "DescendingKw" | .equalsKw => "EqualsKw"
  | .fromKw => "FromKw" | .getKw => "GetKw" | .groupKw => "GroupKw" | .initKw => "InitKw"
  | .intoKw => "IntoKw" | .joinKw => "JoinKw" | .letKw => "LetKw" | .nameofKw => "NameofKw"
  | .onKw => "OnKw" | .orderbyKw => "OrderbyKw" | .partialKw => "PartialKw"
  | .removeKw => "RemoveKw" | .selectKw => "SelectKw" | .setKw => "SetKw"
  | .whereKw => "WhereKw" | .yieldKw => "YieldKw" | .lBrace => "LBrace" | .rBrace => "RBrace"
  | .lParen => "LParen" | .rParen => "RParen" | .lBracket => "LBracket"
  | .rBracket => "RBracket" | .semicolon => "Semicolon" | .comma => "Comma" | .dot => "Dot"
  | .colon => "Colon" | .colonColon => "ColonColon" | .question => "Question"
  | .questionDot => "QuestionDot" | .questionQuestion => "QuestionQuestion"
  | .questionQuestionEq => "QuestionQuestionEq" | .fatArrow => "FatArrow" | .eq => "Eq"
  | .eqEq => "EqEq" | .bang => "Bang" | .bangEq => "BangEq" | .lt => "Lt" | .gt => "Gt"
  | .ltEq => "LtEq" | .gtEq => "GtEq" | .plus => "Plus" | .minus => "Minus" | .star => "Star"
  | .slash => "Slash" | .percent => "Percent" | .amp => "Amp" | .ampAmp => "AmpAmp"
  | .pipe => "Pipe" | .pipePipe => "PipePipe" | .caret => "Caret" | .tilde => "Tilde"
  | .plusPlus => "PlusPlus" | .minusMinus => "MinusMinus" | .plusEq => "PlusEq"
  | .minusEq => "MinusEq" | .starEq => "StarEq" | .slashEq => "SlashEq"
  | .percentEq => "PercentEq" | .ampEq => "AmpEq" | .pipeEq => "PipeEq" | .caretEq => "CaretEq"
  | .shl => "Shl" | .shlEq => "ShlEq" | .arrow => "Arrow" | .ident => "Ident"
  | .intLiteral => "IntLiteral" | .realLiteral => "RealLiteral"
  | .stringLiteral => "StringLiteral" | .charLiteral => "CharLiteral" | .eof => "Eof"
  | .error => "Error" | .compilationUnit => "CompilationUnit"
  | .usingDirective => "UsingDirective" | .namespaceDecl => "NamespaceDecl"
  | .fileScopedNamespaceDecl => "FileScopedNamespaceDecl" | .classDecl => "ClassDecl"
  | .structDecl => "StructDecl" | .interfaceDecl => "InterfaceDecl" | .enumDecl => "EnumDecl"
  | .enumMember => "EnumMember" | .delegateDecl => "DelegateDecl" | .fieldDecl => "FieldDecl"
  | .eventFieldDecl => "EventFieldDecl" | .methodDecl => "MethodDecl"
  | .constructorDecl => "ConstructorDecl" | .constructorInitializer => "ConstructorInitializer"
  | .destructorDecl => "DestructorDecl" | .propertyDecl => "PropertyDecl"
  | .indexerDecl => "IndexerDecl" | .eventDecl => "EventDecl" | .accessorList => "AccessorList"
  | .accessor => "Accessor" | .arrowExprClause => "ArrowExprClause"
  | .parameterList => "ParameterList" | .bracketedParameterList => "BracketedParameterList"
  | .parameter => "Parameter" | .typeParameterList => "TypeParameterList"
  | .typeParameter => "TypeParameter" | .constraintClause => "ConstraintClause"
  | .baseList => "BaseList" | .attributeList => "AttributeList" | .attr => "Attribute"
  | .predefinedType => "PredefinedType" | .nameType => "NameType"
  | .qualifiedType => "QualifiedType" | .genericType => "GenericType"
  | .typeArgumentList => "TypeArgumentList" | .arrayType => "ArrayType"
  | .arrayRank => "ArrayRank" | .nullableType => "NullableType" | .pointerType => "PointerType"
  | .block => "Block" | .localDeclStmt => "LocalDeclStmt" | .variableDecl => "VariableDecl"
  | .variableDeclarator => "VariableDeclarator" | .equalsValueClause => "EqualsValueClause"
  | .exprStmt => "ExprStmt" | .ifStmt => "IfStmt" | .elseClause => "ElseClause"
  | .whileStmt => "WhileStmt" | .doStmt => "DoStmt" | .forStmt => "ForStmt"
  | .foreachStmt => "ForeachStmt" | .returnStmt => "ReturnStmt" | .throwStmt => "ThrowStmt"
  | .breakStmt => "BreakStmt" | .continueStmt => "ContinueStmt" | .usingStmt => "UsingStmt"
  | .lockStmt => "LockStmt" | .fixedStmt => "FixedStmt" | .switchStmt => "SwitchStmt"
  | .switchSection => "SwitchSection" | .caseLabel => "CaseLabel"
  | .defaultLabel => "DefaultLabel" | .gotoStmt => "GotoStmt" | .gotoCaseStmt => "GotoCaseStmt"
  | .gotoDefaultStmt => "GotoDefaultStmt" | .tryStmt => "TryStmt"
  | .catchClause => "CatchClause" | .catchDecl => "CatchDecl"
  | .finallyClause => "FinallyClause" | .checkedStmt => "CheckedStmt"
  | .yieldReturnStmt => "YieldReturnStmt" | .yieldBreakStmt => "YieldBreakStmt"
  | .emptyStmt => "EmptyStmt" | .parenExpr => "ParenExpr" | .binaryExpr => "BinaryExpr"
  | .assignmentExpr => "AssignmentExpr" | .prefixUnaryExpr => "PrefixUnaryExpr"
  | .postfixUnaryExpr => "PostfixUnaryExpr" | .castExpr => "CastExpr"
  | .conditionalExpr => "ConditionalExpr" | .isExpr => "IsExpr" | .asExpr => "AsExpr"
  | .coalesceExpr => "CoalesceExpr" | .simpleLambdaExpr => "SimpleLambdaExpr"
  | .parenLambdaExpr => "ParenLambdaExpr" | .arrayCreationExpr => "ArrayCreationExpr"
  | .implicitArrayCreationExpr => "ImplicitArrayCreationExpr"
  | .stackallocExpr => "StackallocExpr" | .objectCreationExpr => "ObjectCreationExpr"
  | .implicitObjectCreationExpr => "ImplicitObjectCreationExpr"
  | .initializerExpr => "InitializerExpr" | .queryExpr => "QueryExpr"
  | .fromClause => "FromClause" | .whereClause => "WhereClause" | .letClause => "LetClause"
  | .joinClause => "JoinClause" | .orderByClause => "OrderByClause" | .ordering => "Ordering"
  | .selectClause => "SelectClause" | .groupClause => "GroupClause"
  | .queryContinuation => "QueryContinuation" | .awaitExpr => "AwaitExpr"
  | .nameExpr => "NameExpr" | .genericNameExpr => "GenericNameExpr"
  | .memberAccessExpr => "MemberAccessExpr" | .conditionalAccessExpr => "ConditionalAccessExpr"
  | .invocationExpr => "InvocationExpr" | .argumentList => "ArgumentList"
  | .argument => "Argument" | .elementAccessExpr => "ElementAccessExpr"
  | .bracketedArgumentList => "BracketedArgumentList" | .literalExpr => "LiteralExpr"
  | .thisExpr => "ThisExpr" | .baseExpr => "BaseExpr" | .typeofExpr => "TypeofExpr"
  | .sizeofExpr => "SizeofExpr" | .nameofExpr => "NameofExpr" | .defaultExpr => "DefaultExpr"
  | .defaultLiteralExpr => "DefaultLiteralExpr" | .checkedExpr => "CheckedExpr"
  | .predefinedTypeExpr => "PredefinedTypeExpr" | .parenPattern => "ParenPattern"

def ofCode? (n : Nat) : Option Kind :=
  all.find? (fun k => k.code == n)

def ofName? (s : String) : Option Kind :=
  all.find? (fun k => k.name == s)

def isTrivia (k : Kind) : Bool :=
  k.code < 10

def isComment (k : Kind) : Bool :=
  k matches .lineComment | .blockComment | .docComment

def isKeyword (k : Kind) : Bool :=
  10 ≤ k.code && k.code < 200

def isReserved (k : Kind) : Bool :=
  10 ≤ k.code && k.code < 120

def isPunctuation (k : Kind) : Bool :=
  200 ≤ k.code && k.code < 300

def isLiteral (k : Kind) : Bool :=
  k matches .intLiteral | .realLiteral | .stringLiteral | .charLiteral | .trueKw | .falseKw | .nullKw

def isNode (k : Kind) : Bool :=
  400 ≤ k.code

/-- Expression nodes. Query clauses, orderings, arguments and patterns stand among the codes of
expressions and are none. -/
def isExpression (k : Kind) : Bool :=
  550 ≤ k.code && k.code < 630 &&
    !(k matches .fromClause | .whereClause | .letClause | .joinClause | .orderByClause | .ordering
      | .selectClause | .groupClause | .queryContinuation | .argumentList | .argument
      | .bracketedArgumentList | .parenPattern)

/-- Tokens made of the characters of names; two of them may not touch. -/
def isWord (k : Kind) : Bool :=
  k.isKeyword || k matches .ident | .intLiteral | .realLiteral | .charLiteral

def isPredefinedType (k : Kind) : Bool :=
  k matches .boolKw | .byteKw | .charKw | .decimalKw | .doubleKw | .floatKw | .intKw | .longKw
    | .objectKw | .sbyteKw | .shortKw | .stringKw | .uintKw | .ulongKw | .ushortKw | .voidKw

def isModifier (k : Kind) : Bool :=
  k matches .abstractKw | .asyncKw | .constKw | .externKw | .internalKw | .newKw | .overrideKw
    | .partialKw | .privateKw | .protectedKw | .publicKw | .readonlyKw | .sealedKw | .staticKw
    | .unsafeKw | .virtualKw | .volatileKw

end Kind

end Lintel
