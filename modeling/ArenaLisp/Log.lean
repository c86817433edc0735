/-!
# What a machine records

A machine records each collection, each allocation that failed and each application of a closure, as
far as the threshold of its log lets them through.
-/

namespace ArenaLisp

/-- How much a record matters; errors matter most. -/
inductive Level where
  | error | warn | info | debug | trace
  deriving DecidableEq, Repr

namespace Level

def all : List Level := [error, warn, info, debug, trace]

def name : Level → String
  | error => "ERROR"
  | warn => "WARN"
  | info => "INFO"
  | debug => "DEBUG"
  | trace => "TRACE"

/-- The number of levels that matter more. -/
def rank : Level → Nat
  | error => 0
  | warn => 1
  | info => 2
  | debug => 3
  | trace => 4

/-- The level with a given name, in capitals or not. -/
def ofName? (s : String) : Option Level := all.find? (·.name == s.map Char.toUpper)

end Level

/-- Something that happened in a machine. -/
inductive Record where
  /-- A collection ran; `reclaimed` of `capacity` cells were freed. -/
  | collected (number reclaimed capacity roots : Nat)
  /-- An allocation failed. -/
  | exhausted (used roots : Nat)
  /-- A closure was applied; its formals and actuals are given in print. -/
  | applied (formals actuals : String)
  /-- A program came to its end. -/
  | evaluated (expressions : Nat)
  deriving DecidableEq, Repr

namespace Record

def level : Record → Level
  | collected .. => .debug
  | exhausted .. => .warn
  | applied .. => .trace
  | evaluated _ => .info

/-- The part of the program that a record comes from. -/
def target : Record → String
  | collected .. | exhausted .. => "rlisp::heap"
  | applied .. => "rlisp::eval"
  | evaluated _ => "rlisp"

def text : Record → String
  | collected number reclaimed capacity roots =>
    s!"gc #{number}: reclaimed {reclaimed} of {capacity} cells ({roots} roots)"
  | exhausted used roots => s!"arena exhausted: {used} cells live, {roots} roots pinned"
  | applied formals actuals => s!"apply closure formals={formals} actuals={actuals}"
  | evaluated expressions => s!"evaluated {expressions} expressions"

/-- A record as a line of text, with its level in a column of five characters. -/
def line (r : Record) : String :=
  let level := String.ofList (r.level.name.toList.rightpad 5 ' ')
  s!"[{level} {r.target}] {r.text}"

end Record

/-- The records so far.  Without a threshold nothing is recorded. -/
structure Log where
  threshold : Option Level
  records : Array Record

namespace Log

def empty (threshold : Option Level) : Log := ⟨threshold, #[]⟩

/-- Whether records of a level are let through. -/
def enabled (log : Log) (level : Level) : Bool := log.threshold.any (level.rank ≤ ·.rank)

/-- Adds a record, if its level is let through. -/
def add (log : Log) (r : Record) : Log :=
  if log.enabled r.level then { log with records := log.records.push r } else log

end Log

end ArenaLisp
