import WireRecords.Text

/-!
# Log levels

Levels are ordered by rank. Seven of them have names; the highest of these, `off`, is a threshold
that nothing passes and no level of an entry.
-/

namespace WireRecords.Log

structure Level where
  rank : Int
  deriving DecidableEq, Repr

namespace Level

def trace : Level := ⟨0⟩
def debug : Level := ⟨1⟩
def info : Level := ⟨2⟩
def warning : Level := ⟨3⟩
def error : Level := ⟨4⟩
def critical : Level := ⟨5⟩
def off : Level := ⟨6⟩

instance : LE Level := ⟨fun a b => a.rank ≤ b.rank⟩

instance (a b : Level) : Decidable (a ≤ b) := inferInstanceAs (Decidable (a.rank ≤ b.rank))

def label (l : Level) : String :=
  if l = trace then "TRACE"
  else if l = debug then "DEBUG"
  else if l = info then "INFO"
  else if l = warning then "WARN"
  else if l = error then "ERROR"
  else if l = critical then "CRIT"
  else "OFF"

def name (l : Level) : String :=
  if l = trace then "trace"
  else if l = debug then "debug"
  else if l = info then "info"
  else if l = warning then "warning"
  else if l = error then "error"
  else if l = critical then "critical"
  else "off"

/-- The level that a text names, in any letter case; `info` if it names none. -/
def parse (s : String) : Level :=
  match Text.lower s with
  | "trace" => trace
  | "debug" => debug
  | "warn" => warning
  | "warning" => warning
  | "error" => error
  | "critical" => critical
  | "fatal" => critical
  | "off" => off
  | _ => info

/-- The number of a level's colour on a terminal. Without one, colours are reset. -/
def color (l : Level) : String :=
  if l = trace then "37"
  else if l = debug then "36"
  else if l = info then "32"
  else if l = warning then "33"
  else if l = error then "31"
  else if l = critical then "35"
  else "0"

end Level

end WireRecords.Log
