import Polish.Expr

namespace Polish

inductive FileTrouble where
  | doesNotExist
  | noSuchFile
  | notDirectory
  | isDirectory
  | nameTooLong
  | invalidArgument
  deriving DecidableEq

inductive FileAction where
  | opening
  | reading
  deriving DecidableEq

structure FileError where
  action : Option FileAction := none
  path : Bytes
  trouble : FileTrouble
  deriving DecidableEq

namespace FileTrouble

def render : FileTrouble → Bytes
  | .doesNotExist => utf8 "file does not exist"
  | .noSuchFile => utf8 "no such file or directory"
  | .notDirectory => utf8 "not a directory"
  | .isDirectory => utf8 "is a directory"
  | .nameTooLong => utf8 "file name too long"
  | .invalidArgument => utf8 "invalid argument"

def isAbsence : FileTrouble → Bool
  | .doesNotExist | .noSuchFile => true
  | _ => false

end FileTrouble

def inContext (context text : Bytes) : Bytes :=
  if context.isEmpty then text else context ++ utf8 ": " ++ text

namespace FileError

def message (e : FileError) : Bytes :=
  let context := match e.action with
    | none => e.path
    | some .opening => utf8 "open " ++ e.path
    | some .reading => utf8 "read " ++ e.path
  inContext context e.trouble.render

end FileError

inductive Malformed where
  | straySeparator (b : UInt8)
  | unknownDeclaration (word : Bytes)
  | functionName
  | endBeforeArrow
  | endBeforeExpr
  | endBeforeType
  | paramName (ty : Ty)
  | unexpected (b : UInt8)
  | unclosedGroup
  | unclosedArray
  | stringExpected
  | unclosedString
  | importsUnsupported (target : Bytes)
  | stated (message : Bytes)

namespace Malformed

private def character (b : UInt8) : Bytes := [ascii '\'', b, ascii '\'']

def message : Malformed → Bytes
  | .straySeparator b => utf8 "unexpected " ++ character b ++ utf8 " at top level"
  | .unknownDeclaration word => utf8 "unexpected top level declaration " ++ word
  | .functionName => utf8 "function name expected"
  | .endBeforeArrow => utf8 "unexpected EOF, => expected"
  | .endBeforeExpr => utf8 "unexpected EOF, expression expected"
  | .endBeforeType => utf8 "unexpected EOF, type expected"
  | .paramName ty => utf8 "argument name expected after " ++ ty.name
  | .unexpected b => utf8 "unexpected " ++ character b
  | .unclosedGroup => utf8 "expected )"
  | .unclosedArray => utf8 "expected ]"
  | .stringExpected => utf8 "expected string"
  | .unclosedString => utf8 "unterminated string"
  | .importsUnsupported target => utf8 "imports are not supported here: " ++ target
  | .stated message => message

end Malformed

inductive EntryFlaw where
  | notDefined
  | hasKind (kind : Kind)
  | takesArguments
  | stated (reason : Bytes)

def EntryFlaw.reason : EntryFlaw → Bytes
  | .notDefined => utf8 "not defined"
  | .hasKind kind => utf8 "is " ++ kind.render
  | .takesArguments => utf8 "must take no arguments"
  | .stated reason => reason

inductive Problem where
  | malformed (why : Malformed)
  | unknownType (name : Bytes)
  | duplicate (name : Bytes)
  | unresolved (name : Bytes)
  | unbound (name : Bytes)
  | mismatch (source target : Ty)
  | arity (want got : Int)
  | notCallable (got : Ty)
  | unreadable (path : Bytes) (cause : Problem)
  | anonymousImport (target : Bytes)
  | entry (name : Bytes) (flaw : EntryFlaw)
  | file (e : FileError)

namespace Problem

def textless : Bytes :=
  utf8 "%!v(PANIC=Error method: runtime error: invalid memory address or nil pointer dereference)"

def message : Problem → Bytes
  | .malformed why => why.message
  | .unknownType name => utf8 "unexpected type " ++ name
  | .duplicate name => utf8 "function " ++ name ++ utf8 " already exists"
  | .unresolved name => name ++ utf8 " is not a function nor is it defined in the current scope"
  | .unbound name => name ++ utf8 " does not exist in the current scope"
  | .mismatch source target =>
    if source.same .absent || target.same .absent then textless
    else utf8 "cannot cast from " ++ source.name ++ utf8 " to " ++ target.name
  | .arity want got =>
    utf8 "args length mismatch: want " ++ Bytes.integer want ++ utf8 ", got " ++ Bytes.integer got
  | .notCallable got => if got.same .absent then textless else utf8 "call expects a function, got " ++ got.name
  | .unreadable path cause => utf8 "cannot read file " ++ path ++ utf8 ": " ++ cause.message
  | .anonymousImport target =>
    utf8 "anonymous files cannot import from other than std: " ++ target
  | .entry name flaw => utf8 "entry function " ++ name ++ utf8 " " ++ flaw.reason
  | .file e => e.message

def cause? : Problem → Option Problem
  | .unreadable _ cause => some cause
  | _ => none

/-- Whether a type that the text names is absent, so that there is no text of its own. -/
def lacksType : Problem → Bool
  | .mismatch source target => source.same .absent || target.same .absent
  | .notCallable got => got.same .absent
  | _ => false

end Problem

end Polish
