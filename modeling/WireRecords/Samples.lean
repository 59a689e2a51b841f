import WireRecords.Codec

/-!
# Sample record types

Small record types: the three that the inspector knows (`packet`, `integers`, `frame`), and others
that show nesting, nameless fields, clashing keys, empty records and every kind of primitive.
-/

namespace WireRecords.Samples

open Primitive

def packetFields : Schema :=
  .leaf "version" (.ordered u16 .big) <| .leaf "ttl" (.single u8) <|
  .leaf "checksum" (.ordered u32 .little) .nil

def packet : RecordType := { fields := packetFields }

def integersFields : Schema :=
  .leaf "u8_0" (.single u8) <| .leaf "i8_0" (.single i8) <|
  .leaf "u16_0" (.ordered u16 .big) <| .leaf "i16_0" (.ordered i16 .big) <|
  .leaf "u16_1" (.ordered u16 .little) <| .leaf "i16_1" (.ordered i16 .little) <|
  .leaf "u32_0" (.ordered u32 .big) <| .leaf "i32_0" (.ordered i32 .big) <|
  .leaf "u32_1" (.ordered u32 .little) <| .leaf "i32_1" (.ordered i32 .little) <|
  .leaf "u64_0" (.ordered u64 .big) <| .leaf "i64_0" (.ordered i64 .big) <|
  .leaf "u64_1" (.ordered u64 .little) <| .leaf "i64_1" (.ordered i64 .little) .nil

def integers : RecordType := { fields := integersFields }

def frameFields : Schema :=
  .leaf "kind" (.single u8) <| .group "header" packetFields <|
  .leaf "sequence" (.ordered u32 .little) <| .leaf "flags" (.single .byte) <|
  .leaf "urgent" (.single .boolean) <|
  .leaf "status" (.ordered (.enumeration "FrameStatus" (.unsigned .two)) .big) .nil

/-- A new frame has the kind 7. -/
def frame : RecordType where
  fields := frameFields
  initial := (⟨7, by decide, by decide⟩, (Schema.Record.zero frameFields).2)

def empty : RecordType := { fields := .nil }

def pointFields : Schema :=
  .leaf "x" (.ordered i16 .big) <| .leaf "y" (.ordered i16 .big) .nil

def point : RecordType := { fields := pointFields }

def segmentFields : Schema :=
  .leaf "tag" (.single u8) <| .group "from" pointFields <| .group "to" pointFields <|
  .leaf "length" (.ordered u32 .little) .nil

def segment : RecordType := { fields := segmentFields }

def path : RecordType where
  fields := .group "" segmentFields <| .leaf "" (.ordered u16 .little) <|
    .group "" segmentFields .nil

def pair : RecordType where
  fields := .leaf "" (.single u8) <| .leaf "" (.ordered i16 .big) .nil

/-- A name that is the position of a nameless field. -/
def clash : RecordType where
  fields := .leaf "1" (.ordered u16 .big) <| .leaf "" (.single u8) .nil

def odd : RecordType where
  fields := .leaf "" (.single u8) <| .leaf "x.y" (.ordered u16 .little) <|
    .group "c" pointFields .nil

def hollow : RecordType where
  fields := .leaf "a" (.single u8) <| .group "none" .nil <| .leaf "b" (.ordered u16 .little) .nil

def level1 : Schema :=
  .group "in" (.leaf "v" (.single u8) .nil) <| .leaf "a" (.ordered u16 .little) .nil

def level2 : Schema := .leaf "b" (.ordered u32 .big) <| .group "in" level1 .nil

def level3 : Schema := .group "in" level2 <| .leaf "c" (.single .boolean) .nil

def deep : RecordType where
  fields := .leaf "d" (.ordered i64 .little) <| .group "in" level3 <| .group "tail" level1 .nil

def kinds : RecordType where
  fields :=
    .leaf "c" (.single (.integer .char)) <| .leaf "c8" (.single (.integer .char8)) <|
    .leaf "c16" (.ordered (.integer .char16) .big) <|
    .leaf "c32" (.ordered (.integer .char32) .little) <|
    .leaf "w" (.ordered (.integer .wideChar) .big) <|
    .leaf "flag" (.single .boolean) <| .leaf "raw" (.single .byte) <|
    .leaf "eu8" (.single (.enumeration "EU8" (.unsigned .one))) <|
    .leaf "es8" (.single (.enumeration "ES8" (.signed .one))) <|
    .leaf "eu16" (.ordered (.enumeration "EU16" (.unsigned .two)) .little) <|
    .leaf "es16" (.ordered (.enumeration "ES16" (.signed .two)) .big) <|
    .leaf "eu32" (.ordered (.enumeration "EU32" (.unsigned .four)) .big) <|
    .leaf "es32" (.ordered (.enumeration "ES32" (.signed .four)) .little) <|
    .leaf "eu64" (.ordered (.enumeration "EU64" (.unsigned .eight)) .little) <|
    .leaf "es64" (.ordered (.enumeration "ES64" (.signed .eight)) .big) <|
    .leaf "ch" (.single (.enumeration "Channel" .char)) <|
    .leaf "ll" (.ordered i64 .little) <| .leaf "ul" (.ordered u64 .big) .nil

def pong : RecordType where
  fields := .leaf "token" (.ordered u16 .big) .nil

end WireRecords.Samples
