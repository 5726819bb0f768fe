import DelayHint.Compact
import DelayHint.Insert
import DelayHint.Switches
import DelayHint.Validate

/-! The whole pipeline: check, insert, compact, check again and print, as the switches say. -/
namespace DelayHint

/-- The switches are read from their text when one is first asked for. Without a text they are
off. -/
inductive Settings where
  | unread (text : Option String)
  | known (switches : Switches)
  deriving DecidableEq, Repr

/-- The switches, and the complaints when their text is read now. -/
def Settings.read : Settings → Switches × List Message
  | .unread (some text) => Switches.read text
  | .unread none => (Switches.off, [])
  | .known switches => (switches, [])

/-- The program, the settings for the next one, the messages and the printed text. -/
structure Scheduled where
  program : Program
  settings : Settings
  log : List Message := []
  printed : String := ""

namespace Program

def check (p : Program) (wanted : Bool) (fault : Violation → Fault) : Except Fault Unit :=
  match p.violation? with
  | some v => if wanted then .error (fault v) else .ok ()
  | none => .ok ()

def report (p : Program) : String := "After delay ALU insertion:\n" ++ p.text ++ "\n"

def compactUnless (p : Program) (noCombine : Bool) : Program × List Message :=
  if noCombine then (p, []) else (p.compact, [.merged p.mergedPairs])

/-- Run the passes under switches that are known. -/
def scheduleWith (p : Program) (s : Switches) : Except Fault Scheduled :=
  if s.noDelay then .ok { program := p, settings := .known s }
  else do
    p.check s.validate .invalidBefore
    let inserted ← p.insertHints
    let (done, merges) := inserted.program.compactUnless s.noCombine
    done.check s.validate .invalidAfter
    return {
      program := done
      settings := .known s
      log := inserted.log ++ merges
      printed := if s.print then done.report else "" }

/-- Run the passes. Programs for hardware without hints are left alone. -/
def schedule (p : Program) (settings : Settings) : Except Fault Scheduled :=
  if p.model.generation.hasHints then do
    let (switches, complaints) := settings.read
    let r ← p.scheduleWith switches
    return { r with log := complaints ++ r.log }
  else .ok { program := p, settings }

end Program

end DelayHint
