import Nslc.Basic.Source
/-!
# Tokens

`TokenKind`, the token the lexer hands on, and the two closed sets of
names the lexer classifies identifiers by. Kinds keep the source's names
without their `tk_`; a trailing underscore marks a name that is reserved
there or here.
-/

namespace Nslc

namespace Lex

inductive TokenKind where
  | unknown
  | eof
  | identifier
  | stringLit
  | decimalLit
  | hexLit
  | binaryLit
  | octalLit
  | systemTask
  | systemFunction
  | unusedUnderscore
  -- reserved keywords (`KeywordSet.def`)
  | alt
  | any
  | declare
  | finish
  | for_
  | func
  | funcIn
  | funcOut
  | funcSelf
  | generate
  | goto_
  | inout
  | input
  | integer
  | interface
  | label
  | labelName
  | mClock
  | mem
  | module_
  | output
  | pReset
  | proc
  | procName
  | reg
  | seq
  | state
  | stateName
  | variable_
  | while_
  | wire
  | else_
  | firstState
  | function
  | if_
  | invoke
  | paramInt
  | paramStr
  | parameter
  | return_
  | simulation
  | struct_
  -- punctuation
  | lparen
  | rparen
  | lbrace
  | rbrace
  | lbracket
  | rbracket
  | comma
  | semicolon
  | colon
  | dot
  | assign
  | assignSeq
  | plus
  | minus
  | plusPlus
  | minusMinus
  | star
  | slash
  | percent
  | amp
  | pipe
  | caret
  | tilde
  | logicalAnd
  | logicalOr
  | logicalNot
  | equal
  | notEqual
  | less
  | lessEqual
  | greater
  | greaterEqual
  | shiftLeft
  | shiftRight
  | question
  | atSign
  | hashSignExtend
  | apostropheZeroExtend
  | dotLbrace
  | lineDirective
  deriving DecidableEq, Repr

/-- The flag bits of a numeric literal: which value markers it has. -/
structure NumFlags where
  hasZ : Bool
  hasX : Bool
  hasU : Bool
  deriving DecidableEq, Repr

def NumFlags.plain : NumFlags := ⟨false, false, false⟩

/-- A token: its kind, its byte range, its spelling, its flags. -/
structure Token where
  kind : TokenKind
  begin_ : ℕ
  end_ : ℕ
  spelling : Text
  flags : NumFlags
  deriving DecidableEq, Repr

/-- `KeywordSet.def`. -/
def keywordSet : List (Text × TokenKind) :=
  ([ ("alt", .alt), ("any", .any), ("declare", .declare), ("finish", .finish), ("for", .for_),
    ("func", .func), ("func_in", .funcIn), ("func_out", .funcOut), ("func_self", .funcSelf),
    ("generate", .generate), ("goto", .goto_), ("inout", .inout), ("input", .input),
    ("integer", .integer), ("interface", .interface), ("label", .label),
    ("label_name", .labelName), ("m_clock", .mClock), ("mem", .mem), ("module", .module_),
    ("output", .output), ("p_reset", .pReset), ("proc", .proc), ("proc_name", .procName),
    ("reg", .reg), ("seq", .seq), ("state", .state), ("state_name", .stateName),
    ("variable", .variable_), ("while", .while_), ("wire", .wire), ("else", .else_),
    ("first_state", .firstState), ("function", .function), ("if", .if_), ("invoke", .invoke),
    ("param_int", .paramInt), ("param_str", .paramStr), ("parameter", .parameter),
    ("return", .return_), ("simulation", .simulation), ("struct", .struct_) ] :
      List (String × TokenKind)).map fun p => (p.1.toList, p.2)

/-- An identifier is a keyword only if it matches one exactly. -/
def classifyKeyword (ident : Text) : TokenKind :=
  ((keywordSet.find? fun p => p.1 = ident).map Prod.snd).getD .identifier

/-- System tasks, system variables, and the other names with a leading
underscore. -/
def classifyUnderscoreName (text : Text) : TokenKind :=
  if text ∈ (["_display", "_monitor", "_write", "_finish", "_stop", "_readmemh", "_readmemb",
      "_delay", "_init"].map String.toList) then .systemTask
  else if text ∈ (["_random", "_time"].map String.toList) then .systemFunction
  else .unusedUnderscore

end Lex

end Nslc
