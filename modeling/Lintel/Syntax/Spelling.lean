import Lintel.Syntax.Kind
import Lintel.Text.Basic

namespace Lintel.Kind

def reservedWords : List (String × Kind) := [
  ("abstract", .abstractKw), ("as", .asKw), ("base", .baseKw), ("bool", .boolKw),
  ("break", .breakKw), ("byte", .byteKw), ("case", .caseKw), ("catch", .catchKw),
  ("char", .charKw), ("checked", .checkedKw), ("class", .classKw), ("const", .constKw),
  ("continue", .continueKw), ("decimal", .decimalKw), ("default", .defaultKw),
  ("delegate", .delegateKw), ("do", .doKw), ("double", .doubleKw), ("else", .elseKw),
  ("enum", .enumKw), ("event", .eventKw), ("explicit", .explicitKw), ("extern", .externKw),
  ("false", .falseKw), ("finally", .finallyKw), ("fixed", .fixedKw), ("float", .floatKw),
  ("for", .forKw), ("foreach", .foreachKw), ("goto", .gotoKw), ("if", .ifKw),
  ("implicit", .implicitKw), ("in", .inKw), ("int", .intKw), ("interface", .interfaceKw),
  ("internal", .internalKw), ("is", .isKw), ("lock", .lockKw), ("long", .longKw),
  ("namespace", .namespaceKw), ("new", .newKw), ("null", .nullKw), ("object", .objectKw),
  ("operator", .operatorKw), ("out", .outKw), ("override", .overrideKw), ("params", .paramsKw),
  ("private", .privateKw), ("protected", .protectedKw), ("public", .publicKw),
  ("readonly", .readonlyKw), ("ref", .refKw), ("return", .returnKw), ("sbyte", .sbyteKw),
  ("sealed", .sealedKw), ("short", .shortKw), ("sizeof", .sizeofKw),
  ("stackalloc", .stackallocKw), ("static", .staticKw), ("string", .stringKw),
  ("struct", .structKw), ("switch", .switchKw), ("this", .thisKw), ("throw", .throwKw),
  ("true", .trueKw), ("try", .tryKw), ("typeof", .typeofKw), ("uint", .uintKw),
  ("ulong", .ulongKw), ("unchecked", .uncheckedKw), ("unsafe", .unsafeKw), ("ushort", .ushortKw),
  ("using", .usingKw), ("virtual", .virtualKw), ("void", .voidKw), ("volatile", .volatileKw),
  ("while", .whileKw)]

def contextualWords : List (String × Kind) := [
  ("add", .addKw), ("ascending", .ascendingKw), ("async", .asyncKw), ("await", .awaitKw),
  ("by", .byKw), ("descending", .descendingKw), ("equals", .equalsKw), ("from", .fromKw),
  ("get", .getKw), ("group", .groupKw), ("init", .initKw), ("into", .intoKw), ("join", .joinKw),
  ("let", .letKw), ("nameof", .nameofKw), ("on", .onKw), ("orderby", .orderbyKw),
  ("partial", .partialKw), ("remove", .removeKw), ("select", .selectKw), ("set", .setKw),
  ("where", .whereKw), ("yield", .yieldKw)]

/-- Punctuation, where a longer sign stands before each sign it starts with. There is no sign of two
closing angles: the end of nested type arguments needs them apart. -/
def signs : List (String × Kind) := [
  ("??=", .questionQuestionEq), ("<<=", .shlEq), ("??", .questionQuestion), ("?.", .questionDot),
  ("::", .colonColon), ("=>", .fatArrow), ("==", .eqEq), ("!=", .bangEq), ("<=", .ltEq),
  (">=", .gtEq), ("&&", .ampAmp), ("||", .pipePipe), ("++", .plusPlus), ("--", .minusMinus),
  ("+=", .plusEq), ("-=", .minusEq), ("*=", .starEq), ("/=", .slashEq), ("%=", .percentEq),
  ("&=", .ampEq), ("|=", .pipeEq), ("^=", .caretEq), ("<<", .shl), ("->", .arrow),
  ("\x7b", .lBrace), ("\x7d", .rBrace), ("(", .lParen), (")", .rParen), ("[", .lBracket),
  ("]", .rBracket), (";", .semicolon), (",", .comma), (".", .dot), (":", .colon),
  ("?", .question), ("=", .eq), ("!", .bang), ("<", .lt), (">", .gt), ("+", .plus),
  ("-", .minus), ("*", .star), ("/", .slash), ("%", .percent), ("&", .amp), ("|", .pipe),
  ("^", .caret), ("~", .tilde)]

def reservedWord? (t : Text) : Option Kind :=
  (reservedWords.find? (fun w => w.1.toList == t)).map (·.2)

def contextualWord? (t : Text) : Option Kind :=
  (contextualWords.find? (fun w => w.1.toList == t)).map (·.2)

def spelling? (k : Kind) : Option String :=
  ((reservedWords ++ contextualWords ++ signs).find? (fun w => w.2 == k)).map (·.1)

end Lintel.Kind
