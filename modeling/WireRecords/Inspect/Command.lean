import WireRecords.Bytes.Hex
import WireRecords.Inspect.Catalogue
import WireRecords.JsonView
import WireRecords.Log.Violation
import WireRecords.Settings

/-!
# The commands of the inspector

`layout` describes a record type, `decode` shows the record in a message, and `encode` turns a JSON
document into a message. A command either has an output or refuses; a refusal says why and leaves no
output behind. A file that can be opened and not read leaves the command without an answer.
-/

namespace WireRecords.Inspect

open Log (Hub LoggerId Level)

inductive Exit where
  | ok
  | failure
  | usage
  | aborted
  deriving DecidableEq, Repr

namespace Exit

/-- The last one is not the program's own: it is what the system makes of an exception. -/
def code : Exit → Nat
  | ok => 0
  | failure => 1
  | usage => 2
  | aborted => 134

end Exit

def usageText : String :=
  "Usage: structwire_inspect <command> [--key=value...]\n" ++
  "  layout --record=<name> [--format=text|json]\n" ++
  "  decode --record=<name|auto> (--hex=<bytes> | --input=<file>)\n" ++
  "  encode --record=<name> --json=<file> [--output=<file>]\n" ++
  "Common: --config=<file> --log.level=<level> --log.file=<file>\n" ++
  "Records:" ++ String.join (catalogue.map fun r => " " ++ r.name) ++ "\n"

inductive Refusal where
  | misused
  | unknownCommand (name : String)
  | malformedHex
  | unreadableFile
  | brokenFile
  | noBytes
  | unmatched (first : UInt8)
  | malformedJson
  | unwritableFile
  | codec (error : CodecError)
  deriving DecidableEq, Repr

namespace Refusal

def exit : Refusal → Exit
  | misused => .usage
  | unknownCommand _ => .usage
  | malformedHex => .usage
  | brokenFile => .aborted
  | _ => .failure

def text : Refusal → String
  | misused => usageText
  | unknownCommand name => "unknown command: " ++ name ++ "\n" ++ usageText
  | malformedHex => "invalid hex string\n"
  | unreadableFile => "failed to read file\n"
  | brokenFile => ""
  | noBytes => "no bytes to match an identifier against\n"
  | unmatched first => s!"no record matches identifier {first.toNat}\n"
  | malformedJson => "invalid JSON document\n"
  | unwritableFile => "failed to write file\n"
  | codec error => error.message ++ "\n"

end Refusal

structure Reply where
  exit : Exit
  out : String
  err : String
  hub : Hub

structure Context where
  settings : Settings
  logger : LoggerId

namespace Context

def setting (c : Context) (key : String) : String := c.settings.getString key ""

def log (c : Context) (level : Level) (text : String) (h : Hub) : Hub :=
  h.log c.logger { level, text }

def record? (c : Context) : Except Refusal KnownRecord :=
  match named? (c.setting "record") with
  | some r => .ok r
  | none => .error .misused

def layout (c : Context) : Except Refusal String := do
  let r ← c.record?
  let l := r.type.layout r.name
  if c.settings.getString "format" "text" = "json" then pure (l.toJson.pretty 2 ++ "\n")
  else pure l.text

def message? (c : Context) (files : FileSystem) : Except Refusal Bytes :=
  if c.settings.has "hex" then
    match Hex.parse (c.setting "hex") with
    | some bs => .ok bs
    | none => .error .malformedHex
  else if c.settings.has "input" then
    match files.read? (c.setting "input") with
    | some bs => .ok bs
    | none => .error .unreadableFile
  else .error .misused

/-- The record type to decode by, and whether the message's first byte selected it. -/
def decoder? (c : Context) (message : Bytes) : Except Refusal (KnownRecord × Bool) :=
  let name := c.settings.getString "record" "auto"
  if name = "auto" then
    match message with
    | [] => .error .noBytes
    | first :: _ =>
      match startingWith? first with
      | some r => .ok (r, true)
      | none => .error (.unmatched first)
  else
    match named? name with
    | some r => .ok (r, false)
    | none => .error .misused

def logSelection (c : Context) (message : Bytes) (r : KnownRecord) (h : Hub) : Hub :=
  c.log .info s!"identifier {(message.headD 0).toNat} selects {r.name}" h

def logTrailing (c : Context) (message : Bytes) (r : KnownRecord) (h : Hub) : Hub :=
  if r.type.byteLen < message.length then
    c.log .warning s!"{message.length - r.type.byteLen} trailing bytes ignored" h
  else h

def decode (c : Context) (h : Hub) : Except Refusal String × Hub :=
  match c.message? h.files with
  | .error refusal => (.error refusal, h)
  | .ok message =>
    match c.decoder? message with
    | .error refusal => (.error refusal, h)
    | .ok (r, selected) =>
      let h := if selected then c.logSelection message r h else h
      let h := c.logTrailing message r h
      match h.decode r.type message with
      | (.error e, h) => (.error (.codec e), h)
      | (.ok v, h) => (.ok ((r.type.toJson v).pretty 2 ++ "\n"), h)

def encoded? (c : Context) (files : FileSystem) : Except Refusal Bytes := do
  let r ← c.record?
  if !c.settings.has "json" then throw .misused
  match files.reading (c.setting "json") with
  | .refused => throw .unreadableFile
  | .broken => throw .brokenFile
  | .bytes content =>
    match Json.parseBytes? content with
    | none => throw .malformedJson
    | some document =>
      match r.type.ofJson document with
      | .error e => throw (.codec e)
      | .ok v => pure (r.type.toBytes v)

def encode (c : Context) (h : Hub) : Except Refusal String × Hub :=
  match c.encoded? h.files with
  | .error refusal => (.error refusal, h)
  | .ok message =>
    if c.settings.has "output" then
      let path := c.setting "output"
      match h.files.write? path message with
      | none => (.error .unwritableFile, h)
      | some files =>
        (.ok "", c.log .info s!"wrote {message.length} bytes to {path}" { h with files })
    else (.ok (Hex.render message ++ "\n"), h)

def perform (c : Context) (command : String) (h : Hub) : Except Refusal String × Hub :=
  match command with
  | "layout" => (c.layout, h)
  | "decode" => c.decode h
  | "encode" => c.encode h
  | command => (.error (.unknownCommand command), h)

def run (c : Context) (command : String) (h : Hub) : Reply :=
  match c.perform command h with
  | (.ok out, hub) => { exit := .ok, out, err := "", hub }
  | (.error refusal, hub) =>
    let hub := match refusal with
      | .codec e => c.log .error e.message hub
      | _ => hub
    { exit := refusal.exit, out := "", err := refusal.text, hub }

end Context

end WireRecords.Inspect
