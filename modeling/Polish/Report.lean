import Polish.Problem

namespace Polish

structure Diagnostic where
  location : Location
  problem : Problem
  fatal : Bool := false

namespace Diagnostic

def message (d : Diagnostic) : Bytes := d.location.render ++ utf8 ": " ++ d.problem.message

end Diagnostic

structure Report where
  entries : List Diagnostic := []

namespace Report

def add (r : Report) (d : Diagnostic) : Report := ⟨r.entries ++ [d]⟩

def size (r : Report) : Nat := r.entries.length

def failed (r : Report) : Bool := !r.entries.isEmpty

def stopped (r : Report) : Bool := r.entries.any (·.fatal)

def summary (r : Report) : Bytes :=
  match r.entries with
  | [] => utf8 "no errors"
  | [d] => d.message
  | d :: others => d.message ++ utf8 " (and " ++ Bytes.decimal others.length ++ utf8 " more errors)"

def summary? (r : Report) : Option Bytes :=
  if r.entries.head?.any (·.problem.lacksType) then none else some r.summary

def hasTexts (r : Report) : Bool := r.entries.all (!·.problem.lacksType)

private def red (text : Bytes) : Bytes := utf8 "\x1b[31;1m" ++ text ++ utf8 "\x1b[0m"

def render (color : Bool) (r : Report) : Bytes :=
  r.entries.flatMap fun d =>
    let location := d.location.render
    (if color then red location else location) ++ utf8 ": " ++ d.problem.message ++ utf8 "\n"

end Report

end Polish
