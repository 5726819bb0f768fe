import DelayHint.Log
import DelayHint.Text

/-! Switches for debugging, given as a text of names with commas between them. -/
namespace DelayHint

inductive Switch where
  /-- Check the program before and after. -/
  | validate
  /-- Do not merge hints. -/
  | noCombine
  | print
  /-- Do not insert hints at all. -/
  | noDelay
  deriving DecidableEq, Repr

namespace Switch

def name : Switch → String
  | validate => "validate"
  | noCombine => "nocombine"
  | print => "print"
  | noDelay => "nodelay"

/-- All switches in the order in which they are printed. -/
def all : List Switch := [validate, noCombine, print, noDelay]

def bit : Switch → Nat
  | validate => 0
  | noCombine => 1
  | print => 2
  | noDelay => 3

def ofName? (s : String) : Option Switch := all.find? (·.name == s)

def read (s : String) : Except Message Switch :=
  match ofName? s with
  | some w => .ok w
  | none => .error (.unknownSwitch s)

end Switch

structure Switches where
  validate : Bool := false
  noCombine : Bool := false
  print : Bool := false
  noDelay : Bool := false
  deriving DecidableEq, Repr

namespace Switches

def off : Switches := {}

def contains (s : Switches) : Switch → Bool
  | .validate => s.validate
  | .noCombine => s.noCombine
  | .print => s.print
  | .noDelay => s.noDelay

def insert (s : Switches) : Switch → Switches
  | .validate => { s with validate := true }
  | .noCombine => { s with noCombine := true }
  | .print => { s with print := true }
  | .noDelay => { s with noDelay := true }

/-- The names between the commas of a text, without the blanks around them. -/
def names (s : String) : List String :=
  (((s.toList.splitOn ',').map Text.trim).filter (· ≠ [])).map String.ofList

def ofNames (ns : List String) : Switches := (ns.filterMap Switch.ofName?).foldl insert off

def complaints (ns : List String) : List Message :=
  (ns.filter fun n => (Switch.ofName? n).isNone).map .unknownSwitch

/-- The switches that a text turns on, and the complaints about it. -/
def read (s : String) : Switches × List Message := (ofNames (names s), complaints (names s))

def text (s : Switches) : String :=
  String.intercalate "," ((Switch.all.filter s.contains).map Switch.name)

end Switches

end DelayHint
