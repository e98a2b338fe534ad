/-!
# Kinds of tokens

A kind is one of: the end of the input, an identifier, a literal, an operator or delimiter with a
fixed spelling, a reserved word. The spellings stand in two tables, `operators` and `reservedWords`;
messages and the scanner both read them there.
-/
namespace FrontEnd

/-- What a token is, without its text. Reserved words begin with `kw`. -/
inductive TokenKind
  | eof | identifier | integer | char | string
  | openBracket | closeBracket | openCurly | closeCurly | openParen | closeParen
  | assignment | equals | bang | notEquals | less | lessEquals | greater | greaterEquals
  | orOr | andAnd | ampersand | pipe | caret | shl | shr
  | dot | dotDot | pathSep | semicolon | colon | question | comma | atSign | underscore
  | arrow | fatArrow
  | plusEquals | minusEquals | starEquals | slashEquals | percentEquals | caretEquals
  | ampersandEquals | pipeEquals | shlEquals | shrEquals
  | plus | dash | slash | star | percent
  | kwAs | kwBreak | kwConst | kwContinue | kwElse | kwEnum | kwFalse | kwFn | kwFor | kwIf
  | kwImpl | kwIn | kwLet | kwLoop | kwMatch | kwMod | kwMut | kwPub | kwRef | kwReturn
  | kwSelfValue | kwSelfType | kwStatic | kwStruct | kwTrait | kwTrue | kwType | kwUnsafe
  | kwUse | kwWhere | kwWhile
  | kwAbstract | kwAwait | kwBecome | kwBox | kwCrate | kwDo | kwDyn | kwExtern | kwFinal
  | kwGen | kwMacro | kwMove | kwOverride | kwPriv | kwSuper | kwTry | kwTypeof | kwUnsized
  | kwVirtual | kwYield
deriving DecidableEq

namespace TokenKind

def name : TokenKind → String
  | eof => "EOF" | identifier => "Identifier" | integer => "Integer" | char => "Char"
  | string => "String" | openBracket => "OpenBracket" | closeBracket => "CloseBracket"
  | openCurly => "OpenCurly" | closeCurly => "CloseCurly" | openParen => "OpenParen"
  | closeParen => "CloseParen" | assignment => "Assignment" | equals => "Equals" | bang => "Not"
  | notEquals => "NotEquals" | less => "Less" | lessEquals => "LessEquals"
  | greater => "Greater" | greaterEquals => "GreaterEquals" | orOr => "Or" | andAnd => "And"
  | ampersand => "Ampersand" | pipe => "Pipe" | caret => "Caret" | shl => "Shl" | shr => "Shr"
  | dot => "Dot" | dotDot => "DotDot" | pathSep => "PathSep" | semicolon => "Semicolon"
  | colon => "Colon" | question => "Question" | comma => "Comma" | atSign => "At"
  | underscore => "Underscore" | arrow => "Arrow" | fatArrow => "FatArrow"
  | plusEquals => "PlusEquals" | minusEquals => "MinusEquals" | starEquals => "StarEquals"
  | slashEquals => "SlashEquals" | percentEquals => "PercentEquals"
  | caretEquals => "CaretEquals" | ampersandEquals => "AmpersandEquals"
  | pipeEquals => "PipeEquals" | shlEquals => "ShlEquals" | shrEquals => "ShrEquals"
  | plus => "Plus" | dash => "Dash" | slash => "Slash" | star => "Star" | percent => "Percent"
  | kwAs => "As" | kwBreak => "Break" | kwConst => "Const" | kwContinue => "Continue"
  | kwElse => "Else" | kwEnum => "Enum" | kwFalse => "False" | kwFn => "Fn" | kwFor => "For"
  | kwIf => "If" | kwImpl => "Impl" | kwIn => "In" | kwLet => "Let" | kwLoop => "Loop"
  | kwMatch => "Match" | kwMod => "Mod" | kwMut => "Mut" | kwPub => "Pub" | kwRef => "Ref"
  | kwReturn => "Return" | kwSelfValue => "SelfValue" | kwSelfType => "SelfType"
  | kwStatic => "Static" | kwStruct => "Struct" | kwTrait => "Trait" | kwTrue => "True"
  | kwType => "Type" | kwUnsafe => "Unsafe" | kwUse => "Use" | kwWhere => "Where"
  | kwWhile => "While" | kwAbstract => "Abstract" | kwAwait => "Await" | kwBecome => "Become"
  | kwBox => "Box" | kwCrate => "Crate" | kwDo => "Do" | kwDyn => "Dyn" | kwExtern => "Extern"
  | kwFinal => "Final" | kwGen => "Gen" | kwMacro => "Macro" | kwMove => "Move"
  | kwOverride => "Override" | kwPriv => "Priv" | kwSuper => "Super" | kwTry => "Try"
  | kwTypeof => "Typeof" | kwUnsized => "Unsized" | kwVirtual => "Virtual" | kwYield => "Yield"

def operators : List (String × TokenKind) :=
  [("[", openBracket), ("]", closeBracket), ("\x7b", openCurly), ("\x7d", closeCurly),
   ("(", openParen), (")", closeParen),
   (">>=", shrEquals), ("<<=", shlEquals),
   ("+=", plusEquals), ("-=", minusEquals), ("*=", starEquals), ("/=", slashEquals),
   ("%=", percentEquals), ("^=", caretEquals), ("&=", ampersandEquals), ("|=", pipeEquals),
   ("==", equals), ("!=", notEquals), ("<=", lessEquals), (">=", greaterEquals),
   ("<<", shl), (">>", shr), ("&&", andAnd), ("||", orOr), ("->", arrow), ("=>", fatArrow),
   ("::", pathSep), ("..", dotDot),
   ("=", assignment), ("!", bang), ("<", less), (">", greater), ("&", ampersand), ("|", pipe),
   ("^", caret), ("+", plus), ("-", dash), ("*", star), ("/", slash), ("%", percent),
   (".", dot), (";", semicolon), (":", colon), (",", comma), ("?", question), ("@", atSign)]

/-- Words that are no identifiers, a lone underscore among them. From `abstract` on they are
reserved but stand nowhere in the grammar. -/
def reservedWords : List (String × TokenKind) :=
  [("as", kwAs), ("break", kwBreak), ("const", kwConst), ("continue", kwContinue),
   ("else", kwElse), ("enum", kwEnum), ("false", kwFalse), ("fn", kwFn), ("for", kwFor),
   ("if", kwIf), ("impl", kwImpl), ("in", kwIn), ("let", kwLet), ("loop", kwLoop),
   ("match", kwMatch), ("mod", kwMod), ("mut", kwMut), ("pub", kwPub), ("ref", kwRef),
   ("return", kwReturn), ("self", kwSelfValue), ("Self", kwSelfType), ("static", kwStatic),
   ("struct", kwStruct), ("trait", kwTrait), ("true", kwTrue), ("type", kwType),
   ("unsafe", kwUnsafe), ("use", kwUse), ("where", kwWhere), ("while", kwWhile),
   ("_", underscore),
   ("abstract", kwAbstract), ("await", kwAwait), ("become", kwBecome), ("box", kwBox),
   ("crate", kwCrate), ("do", kwDo), ("dyn", kwDyn), ("extern", kwExtern), ("final", kwFinal),
   ("gen", kwGen), ("macro", kwMacro), ("move", kwMove), ("override", kwOverride),
   ("priv", kwPriv), ("super", kwSuper), ("try", kwTry), ("typeof", kwTypeof),
   ("unsized", kwUnsized), ("virtual", kwVirtual), ("yield", kwYield)]

def all : List TokenKind :=
  [eof, identifier, integer, char, string] ++ operators.map (·.2) ++ reservedWords.map (·.2)

def ofName? (name : String) : Option TokenKind := all.find? (·.name = name)

def ofReserved? (word : String) : Option TokenKind := reservedWords.lookup word

/-- The kind of a word: its own if it is reserved, else an identifier. -/
def ofWord (word : String) : TokenKind := (ofReserved? word).getD identifier

def spelling? (k : TokenKind) : Option String :=
  ((operators ++ reservedWords).find? (·.2 = k)).map (·.1)

/-- How a kind reads in an error message: its spelling between backquotes, or a phrase for a kind
that is spelt in many ways. -/
def describe : TokenKind → String
  | eof => "end of input"
  | identifier => "an identifier"
  | integer => "an integer literal"
  | char => "a character literal"
  | string => "a string literal"
  | k => "`" ++ k.spelling?.getD k.name ++ "`"

/-- The operators `=`, `+=`, …, `>>=`. -/
def isAssignment (k : TokenKind) : Bool :=
  k ∈ [assignment, plusEquals, minusEquals, starEquals, slashEquals, percentEquals, caretEquals,
    ampersandEquals, pipeEquals, shlEquals, shrEquals]

def isLiteral (k : TokenKind) : Bool := k ∈ [integer, char, string, kwTrue, kwFalse]

theorem mem_all (k : TokenKind) : k ∈ all := by cases k <;> decide

/-- Every kind has a fixed spelling, or is the end of the input, an identifier or a literal with
many spellings. -/
theorem spelling?_eq_none_iff (k : TokenKind) :
    k.spelling? = none ↔ k ∈ [eof, identifier, integer, char, string] := by
  cases k <;> decide

end TokenKind

end FrontEnd
