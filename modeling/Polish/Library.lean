import Polish.Problem

namespace Polish.Library

def io : Bytes :=
    utf8 "import \"std@math\"\n"
    ++ utf8 "\n"
    ++ utf8 "function io/print any val => core/cat val\n"
    ++ utf8 "\n"
    ++ utf8 "function io/show-square number n => io/print math/square n\n"

def math : Bytes :=
    utf8 "function math/square number n => core/mul n n\n"
    ++ utf8 "\n"
    ++ utf8 "function math/cube number n => core/mul n math/square n\n"
    ++ utf8 "\n"
    ++ utf8 "function math/neg number n => core/sub 0 n\n"
    ++ utf8 "\n"
    ++ utf8 "function math/avg number a number b => core/div (core/add a b) 2\n"

def files : List (Bytes × Bytes) := [(utf8 "io.functi", io), (utf8 "math.functi", math)]

/-- The text of a file of the library, given its name; the library has no directories but itself, which is
called `.`. -/
def contents (name : Bytes) : Except FileError Bytes :=
  if name = utf8 "." then .error { action := some .reading, path := name, trouble := .isDirectory }
  else match files.lookup name with
    | some text => .ok text
    | none => .error { action := some .opening, path := name, trouble := .doesNotExist }

end Polish.Library
