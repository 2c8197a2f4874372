import TouchHLE.Lib.Numeral
import TouchHLE.Lib.Outcome
import Mathlib.Data.List.Basic

/-! The packets of the debugger: `read_packet` of `touchHLE/src/gdb.rs`, over a `BufReader`.

    What the reads of the connection return is an input; once they are used up, a read times out. The handlers of the
    packets and failures to write are not modelled. -/

namespace TouchHLE.Gdb

inductive GdbPanic where
  | lostConnection
  | packetStart
  | bufferFull
  | checksumUtf8 | checksumDigits | checksum | bodyUtf8
deriving DecidableEq

/-- A read of the connection: the bytes that have arrived, none at the end of the stream; an error such as the timeout;
    `ErrorKind::BrokenPipe` or `ErrorKind::ConnectionReset`. -/
inductive ReadResult where
  | data (bytes : List UInt8)
  | error
  | lost
deriving DecidableEq

structure BufReader where
  capacity : Nat
  buffer : List UInt8
  incoming : List ReadResult

def BufReader.fillBuf (reader : BufReader) : ReadResult × BufReader :=
  if reader.buffer ≠ [] then (.data reader.buffer, reader)
  else
    match reader.incoming with
    | [] => (.error, reader)
    | .data bytes :: incoming => (.data bytes, { reader with buffer := bytes, incoming })
    | .error :: incoming => (.error, { reader with incoming })
    | .lost :: incoming => (.lost, { reader with incoming })

def BufReader.consume (reader : BufReader) (amt : Nat) : BufReader := { reader with buffer := reader.buffer.drop amt }

def ack : UInt8 := 43
def packetStart : UInt8 := 36
def packetEnd : UInt8 := 35

/-- `u8::from_str_radix(src, 16)`, which skips one plus sign. -/
def fromStrRadix16 (src : List UInt8) : Option UInt8 :=
  let digits := if src.head? = some 43 then src.tail else src
  if digits ≠ [] ∧ digits.all (Lib.Numeral.isDigit 16) ∧ Lib.Numeral.value 16 digits < 256 then
    some (.ofNat (Lib.Numeral.value 16 digits))
  else none

def checksum (body : List UInt8) : UInt8 := body.foldl (fun a b => a + b) 0

structure GdbServer where
  reader : BufReader
  written : List UInt8

def GdbServer.finishPacket (server : GdbServer) (buffer : List UInt8) (bodyEnd : Nat) :
    Except GdbPanic (Option (List UInt8) × GdbServer) :=
  let body := (buffer.take bodyEnd).drop 1
  if buffer.length < bodyEnd + 3 then .ok (none, server)
  else
    let checksum1 := (buffer.drop (bodyEnd + 1)).take 2
    if checksum1.toByteArray.validateUTF8 = false then .error .checksumUtf8
    else
      match fromStrRadix16 checksum1 with
      | none => .error .checksumDigits
      | some checksum1 =>
        if checksum1 ≠ checksum body then .error .checksum
        else if body.toByteArray.validateUTF8 = false then .error .bodyUtf8
        else .ok (some body, { reader := server.reader.consume (bodyEnd + 3), written := server.written ++ [ack] })

def GdbServer.parseBuffer (server : GdbServer) (buffer : List UInt8) : Except GdbPanic (Option (List UInt8) × GdbServer) :=
  match buffer.head? with
  | none => .ok (none, server)
  | some first =>
    if first = ack then .ok (none, { server with reader := server.reader.consume 1 })
    else if first ≠ packetStart then .error .packetStart
    else
      match buffer.findIdx? (· == packetEnd) with
      | none => if buffer.length = server.reader.capacity then .error .bufferFull else .ok (none, server)
      | some bodyEnd => server.finishPacket buffer bodyEnd

def GdbServer.readPacket (server : GdbServer) : Except GdbPanic (Option (List UInt8) × GdbServer) :=
  let filled := server.reader.fillBuf
  let server := { server with reader := filled.2 }
  match filled.1 with
  | .lost => .error .lostConnection
  | .error => .ok (none, server)
  | .data buffer => server.parseBuffer buffer

def GdbServer.new (incoming : List ReadResult) : GdbServer where
  reader := { capacity := 4096, buffer := [], incoming }
  written := [ack]

def GdbServer.readPackets : Nat → GdbServer → Except GdbPanic (List (List UInt8) × GdbServer)
  | 0, server => .ok ([], server)
  | n + 1, server => do
    let packet ← server.readPacket
    let packets ← readPackets n packet.2
    .ok (packet.1.toList ++ packets.1, packets.2)

end TouchHLE.Gdb
