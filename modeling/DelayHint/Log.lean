import DelayHint.Block

/-! Messages that the passes leave about their work. -/
namespace DelayHint

open Text

inductive Level where
  | trace | debug | warn
  deriving DecidableEq, Repr

def Level.name : Level → String
  | .trace => "TRACE"
  | .debug => "DEBUG"
  | .warn => "WARN"

inductive Message where
  | loopAgain (exit header : Nat)
  /-- A block was scanned, with so many pending registers at its start and end. -/
  | scanned (block : Nat) (again : Bool) (before after : Nat)
  | inserted (visits blocks hints : Nat)
  | merged (hints : Nat)
  | unknownSwitch (name : String)
  deriving DecidableEq, Repr

namespace Message

def level : Message → Level
  | loopAgain .. | scanned .. => .trace
  | inserted .. | merged .. => .debug
  | unknownSwitch .. => .warn

def text : Message → String
  | loopAgain exit header => Block.name exit ++ ": revisiting loop header " ++ Block.name header
  | scanned block again before after =>
    Block.name block ++ (if again then " (revisited)" else "") ++ ": " ++ decimal before ++
      " pending registers in, " ++ decimal after ++ " out"
  | inserted visits blocks hints =>
    "insert_delay_alu: " ++ decimal visits ++ " block visits for " ++ decimal blocks ++
      " blocks, " ++ decimal hints ++ " s_delay_alu"
  | merged hints => "combine_delay_alu: merged " ++ decimal hints ++ " s_delay_alu"
  | unknownSwitch name => "unknown ACO_DEBUG flag: " ++ name

def line (m : Message) : String := m.level.name ++ " " ++ m.text

end Message

end DelayHint
