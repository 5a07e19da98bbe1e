import CodeInsight.Span

/-!
# Tokens of PHP source

The vocabulary that the lexer produces and the parser consumes. Words are divided into keywords and
identifiers, operators and delimiters are `Symbol`s, and a string with interpolated parts is a run
of tokens between two equal quotes or between the two marks of a here-document.
-/

namespace CodeInsight.Grammar

/-- Reserved words, including those that may also serve as identifiers (`Keyword.isSoft`). -/
inductive Keyword where
  | abstractKw | andKw | arrayKw | asKw | breakKw | callableKw | caseKw | catchKw | classKw
  | cloneKw | constKw | continueKw | declareKw | defaultKw | doKw | echoKw | elseKw | elseifKw
  | emptyKw | enddeclareKw | endforKw | endforeachKw | endifKw | endswitchKw | endwhileKw | enumKw
  | evalKw | exitKw | extendsKw | falseKw | finalKw | finallyKw | fnKw | forKw | foreachKw | fromKw
  | functionKw | globalKw | gotoKw | haltKw | ifKw | implementsKw | includeKw | instanceofKw
  | insteadofKw | interfaceKw | issetKw | listKw | magicKw | matchKw | namespaceKw | newKw | nullKw
  | orKw | parentKw | printKw | privateKw | privateSetKw | protectedKw | protectedSetKw | publicKw
  | publicSetKw | readonlyKw | returnKw | selfKw | staticKw | switchKw | throwKw | traitKw | trueKw
  | tryKw | unsetKw | useKw | varKw | whileKw | xorKw | yieldKw
  deriving DecidableEq, Repr

namespace Keyword

def spellings : List (String × Keyword) :=
  [("abstract", abstractKw), ("and", andKw), ("array", arrayKw), ("as", asKw), ("break", breakKw),
   ("callable", callableKw), ("case", caseKw), ("catch", catchKw), ("class", classKw),
   ("clone", cloneKw), ("const", constKw), ("continue", continueKw), ("declare", declareKw),
   ("default", defaultKw), ("die", exitKw), ("do", doKw), ("echo", echoKw), ("else", elseKw),
   ("elseif", elseifKw), ("empty", emptyKw), ("enddeclare", enddeclareKw), ("endfor", endforKw),
   ("endforeach", endforeachKw), ("endif", endifKw), ("endswitch", endswitchKw),
   ("endwhile", endwhileKw), ("enum", enumKw), ("eval", evalKw), ("exit", exitKw),
   ("extends", extendsKw), ("false", falseKw), ("final", finalKw), ("finally", finallyKw),
   ("fn", fnKw), ("for", forKw), ("foreach", foreachKw), ("from", fromKw), ("function", functionKw),
   ("global", globalKw), ("goto", gotoKw), ("__halt_compiler", haltKw), ("if", ifKw),
   ("implements", implementsKw), ("include", includeKw), ("include_once", includeKw),
   ("instanceof", instanceofKw), ("insteadof", insteadofKw), ("interface", interfaceKw),
   ("isset", issetKw), ("list", listKw), ("match", matchKw), ("namespace", namespaceKw),
   ("new", newKw), ("null", nullKw), ("or", orKw), ("parent", parentKw), ("print", printKw),
   ("private", privateKw), ("protected", protectedKw), ("public", publicKw),
   ("readonly", readonlyKw), ("require", includeKw), ("require_once", includeKw),
   ("return", returnKw), ("self", selfKw), ("static", staticKw), ("switch", switchKw),
   ("throw", throwKw), ("trait", traitKw), ("true", trueKw), ("try", tryKw), ("unset", unsetKw),
   ("use", useKw), ("var", varKw), ("while", whileKw), ("xor", xorKw), ("yield", yieldKw),
   ("__line__", magicKw), ("__file__", magicKw), ("__dir__", magicKw), ("__function__", magicKw),
   ("__class__", magicKw), ("__trait__", magicKw), ("__method__", magicKw),
   ("__namespace__", magicKw), ("__property__", magicKw)]

/-- The keyword that a word spells, in any mixture of cases. -/
def ofWord? (word : String) : Option Keyword := spellings.lookup word.toLower

/-- What a visibility becomes when `(set)` directly follows it. -/
def restrictedToWriting? : Keyword → Option Keyword
  | publicKw => some publicSetKw
  | protectedKw => some protectedSetKw
  | privateKw => some privateSetKw
  | _ => none

def isModifier : Keyword → Bool
  | publicKw | protectedKw | privateKw | publicSetKw | protectedSetKw | privateSetKw | staticKw
  | abstractKw | finalKw | readonlyKw => true
  | _ => false

/-- Keywords that are constants where an expression is required. -/
def isSoft : Keyword → Bool
  | enumKw | falseKw | fromKw | listKw | matchKw | nullKw | parentKw | readonlyKw | selfKw
  | trueKw => true
  | _ => false

end Keyword

inductive Symbol where
  | semicolon | colon | doubleColon | comma | dot | ellipsis | leftBracket | rightBracket
  | leftParen | rightParen | leftBrace | rightBrace | attributeOpen | arrow | nullArrow
  | doubleArrow | equal | doubleEqual | tripleEqual | bang | bangEqual | bangDoubleEqual | lessMore
  | less | lessEqual | spaceship | shiftLeft | more | moreEqual | shiftRight | plus | doublePlus
  | minus | doubleMinus | star | doubleStar | slash | percent | ampersand | doubleAmpersand | pipe
  | doublePipe | pipeMore | caret | tilde | atSign | question | doubleQuestion | backslash
  | dollar | dollarBrace | assignment
  deriving DecidableEq, Repr

namespace Symbol

/-- Spellings, longest first, so that the first one to match is the longest. All compound
assignment operators are the one symbol `assignment`. -/
def spellings : List (String × Symbol) :=
  [("<<=", assignment), (">>=", assignment), ("**=", assignment), ("??=", assignment),
   ("===", tripleEqual), ("!==", bangDoubleEqual), ("<=>", spaceship), ("...", ellipsis),
   ("?->", nullArrow),
   ("+=", assignment), ("-=", assignment), ("*=", assignment), ("/=", assignment),
   (".=", assignment), ("%=", assignment), ("&=", assignment), ("|=", assignment),
   ("^=", assignment), ("==", doubleEqual), ("!=", bangEqual), ("<>", lessMore),
   ("<=", lessEqual), ("<<", shiftLeft), (">=", moreEqual), (">>", shiftRight),
   ("++", doublePlus), ("--", doubleMinus), ("->", arrow), ("=>", doubleArrow),
   ("**", doubleStar), ("&&", doubleAmpersand), ("||", doublePipe), ("|>", pipeMore),
   ("??", doubleQuestion), ("::", doubleColon), ("#[", attributeOpen), ("$\x7b", dollarBrace),
   (";", semicolon), (":", colon), (",", comma), (".", dot), ("[", leftBracket),
   ("]", rightBracket), ("(", leftParen), (")", rightParen), ("\x7b", leftBrace),
   ("\x7d", rightBrace), ("=", equal), ("!", bang), ("<", less), (">", more), ("+", plus),
   ("-", minus), ("*", star), ("/", slash), ("%", percent), ("&", ampersand), ("|", pipe),
   ("^", caret), ("~", tilde), ("@", atSign), ("?", question), ("\\", backslash), ("$", dollar)]

end Symbol

inductive TokenKind where
  /-- `<?php` or `<?`. -/
  | openTag
  /-- `<?=`. -/
  | echoTag
  /-- `?>`. -/
  | closeTag
  /-- Text outside of the tags. -/
  | markup
  /-- `$name`. -/
  | variable
  /-- A word that is no keyword. -/
  | identifier
  /-- Words joined by backslashes. -/
  | qualified
  /-- Words joined by backslashes, after a leading backslash. -/
  | fullyQualified
  | keyword (word : Keyword)
  | integer
  | float
  /-- A quoted string without interpolated parts. -/
  | string
  /-- A parenthesised type name before an operand, such as `(int)`. -/
  | cast
  | symbol (which : Symbol)
  /-- A double quote or a backtick at either end of a string with interpolated parts. -/
  | quoteMark (quote : Char)
  | documentOpen
  | documentClose
  /-- Text of a string with interpolated parts, or of a here-document. -/
  | templateText
  /-- A quoted string that is never closed. -/
  | unclosed
  /-- Stands for the tokens of an interpolated part that could not be read. -/
  | lapse
  /-- A place where no token begins or where the one that began cannot go on. Nothing follows it. -/
  | invalid
  deriving DecidableEq, Repr

/-- The kind, with names of all forms taken for one. -/
def TokenKind.unqualified : TokenKind → TokenKind
  | .qualified | .fullyQualified => .identifier
  | k => k

structure Token where
  kind : TokenKind
  text : String
  span : Span
  deriving DecidableEq, Repr

namespace Token

def isSymbol (t : Token) (s : Symbol) : Bool := t.kind == .symbol s

def isKeyword (t : Token) (k : Keyword) : Bool := t.kind == .keyword k

/-- The token is a word. Keywords count as words, since they may name declarations and members. -/
def isWord (t : Token) : Bool :=
  match t.kind with
  | .identifier | .keyword _ => true
  | _ => false

end Token

end CodeInsight.Grammar
