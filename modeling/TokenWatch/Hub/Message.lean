import TokenWatch.Hub.Frame
import TokenWatch.Json.Printer
import TokenWatch.Json.Reader

/-!
The messages of the hub protocol, one to a frame.
-/
namespace TokenWatch.Hub
open Json

inductive Message where
  | invocation (id : Option String) (target : String) (arguments : List Value)
  | completion (id : String) (result : Option Value) (failure : Option String)
  | ping
  | close (failure : Option String)
  | other (kind : Nat)

namespace Message

def ofFields (kind : Nat) (id target : Option String) (arguments : List Value)
    (result : Option Value) (failure : Option String) : Message :=
  match kind with
  | 1 => invocation id (target.getD "") arguments
  | 3 => completion (id.getD "") result failure
  | 6 => ping
  | 7 => close failure
  | kind => other kind

def reader : Reader Message := fun levels node => do
  let p ← Reader.parts ["type", "invocationId", "target", "arguments", "result", "error"]
    levels node
  let kind ← p.required "type" (Reader.natBelow 256)
  let id ← p.withDefault "invocationId" none (Reader.orNull Reader.text)
  let target ← p.withDefault "target" none (Reader.orNull Reader.text)
  let arguments ← p.withDefault "arguments" [] (Reader.list Reader.value)
  let result ← p.withDefault "result" none (Reader.orNull Reader.value)
  let failure ← p.withDefault "error" none (Reader.orNull Reader.text)
  return ofFields kind id target arguments result failure

def parse (frame : List Char) : Except Error Message :=
  match Reader.ofText? reader frame with
  | some m => .ok m
  | none => .error (.json "malformed message")

/-- The frame of a client invocation that expects a completion. -/
def encodeCall (id target : String) (arguments : List Value) : List Char :=
  "\x7b\"type\":1,\"invocationId\":".toList ++ quote id ++
    ",\"target\":".toList ++ quote target ++
    ",\"arguments\":".toList ++ (Value.array arguments).print ++ ['\x7d', separator]

def encodedPing : List Char := "\x7b\"type\":6\x7d\x1e".toList

def handshakeRequest : List Char := "\x7b\"protocol\":\"json\",\"version\":1\x7d\x1e".toList

end Message
end TokenWatch.Hub
