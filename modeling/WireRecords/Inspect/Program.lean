import WireRecords.Inspect.Command

/-!
# The inspector

The program puts its settings together, sets up logging, and runs the command that the first
positional argument names. Settings come from built-in defaults, a file that the command line may
name, the environment and the command line, each one overriding those before it.
-/

namespace WireRecords.Inspect.Program

open Log (Hub Level)

def defaults : List (String × Setting) :=
  [("log.level", .text "warning"), ("log.file", .text ""), ("format", .text "text")]

def variableStart : String := "STRUCTWIRE_"

def environmentKeys : List String := ["log.level", "log.file", "format"]

def commandLine (arguments : List String) : Settings :=
  (Settings.empty.loadArguments arguments).1

def settingsPath? (arguments : List String) : Option String :=
  let cli := commandLine arguments
  if cli.has "config" then some (cli.getString "config" "") else none

/-- The settings in effect, unless there is a file to load that cannot be loaded. -/
def settings? (arguments : List String) (env : Environment) (files : FileSystem) :
    Option Settings := do
  let base := Settings.empty.setAll defaults
  let loaded ← match settingsPath? arguments with
    | none => pure base
    | some path => base.loadFile? files path .byName
  let (withEnvironment, _) := loaded.loadEnvironment env variableStart environmentKeys
  pure (withEnvironment.loadArguments arguments).1

def loggerName : String := "structwire.inspect"

def setupLogging (s : Settings) (h : Hub) : Hub :=
  h.setup (Level.parse (s.getString "log.level" "")) true (s.getString "log.file" "")

/-- Runs the command that the settings name, after logging has been set up. What has been logged is
in the log file when the command has finished, unless an exception left it. -/
def perform (s : Settings) (h : Hub) : Reply :=
  let (hub, logger) := h.getLogger loggerName
  let help := s.has "help"
  match s.positional with
  | [] => { exit := if help then .ok else .usage, out := "", err := usageText, hub }
  | command :: _ =>
    if help then { exit := .ok, out := "", err := usageText, hub }
    else
      let c : Context := { settings := s, logger }
      let reply := c.run command (c.log .debug ("command " ++ command) hub)
      if reply.exit = .aborted then reply else { reply with hub := reply.hub.flushAll }

def run (arguments : List String) (env : Environment) (h : Hub) : Reply :=
  match settings? arguments env h.files with
  | none =>
    { exit := .usage, out := "",
      err := "failed to load config file " ++ (settingsPath? arguments).getD "" ++ "\n", hub := h }
  | some s => perform s (setupLogging s h)

end WireRecords.Inspect.Program
