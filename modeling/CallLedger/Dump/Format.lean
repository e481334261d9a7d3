import CallLedger.Dump.Codec
import CallLedger.Json.Reader
import CallLedger.Json.Writer
import CallLedger.MessagePack.Reader
import CallLedger.MessagePack.Writer

/-!
# Dump files

A dump is kept as indented JSON or as MessagePack. JSON has no form for infinities and NaNs, so
only a dump without them can be read back from it; MessagePack keeps every amount bit for bit.
Bytes after a MessagePack dump are left alone, text after a JSON dump is a fault.
-/

namespace CallLedger

inductive DumpFormat where
  | json
  | messagePack
deriving DecidableEq

namespace DumpFormat

def all : List DumpFormat := [json, messagePack]

/-- The name of a format on the command line. -/
def name : DumpFormat → String
  | json => "json"
  | messagePack => "msgpack"

end DumpFormat

namespace Dump

def toJson (dump : Dump Binary64) : String := String.ofList (Json.pretty dump.toData)

def ofJson (text : String) : Except DumpError (Dump Binary64) :=
  match (Json.read? text.toList).bind (ofData? Json.dialect) with
  | some dump => .ok dump
  | none => .error .malformed

def toMessagePack (dump : Dump Binary64) : List UInt8 := MessagePack.write dump.toData

def ofMessagePack (bytes : List UInt8) : Except DumpError (Dump Binary64) :=
  match (MessagePack.read? bytes).bind fun (data, _) => ofData? MessagePack.dialect data with
  | some dump => .ok dump
  | none => .error .malformed

def encode (dump : Dump Binary64) : DumpFormat → List UInt8
  | .json => Text.utf8 dump.toJson
  | .messagePack => dump.toMessagePack

def decode (bytes : List UInt8) : DumpFormat → Except DumpError (Dump Binary64)
  | .json =>
    match Text.ofUtf8? bytes with
    | some text => ofJson text
    | none => .error .malformed
  | .messagePack => ofMessagePack bytes

end Dump

end CallLedger
