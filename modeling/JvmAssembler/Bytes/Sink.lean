import JvmAssembler.Bytes

/-!
# Counted writing

A sink takes bytes as long as it has room, and a counter in front of it adds up how many bytes went
through.
-/

namespace JvmAssembler

/-- A place for bytes, with the room that is left in it. -/
structure Sink where
  room : Nat
  bytes : Bytes := []

/-- A sink and the number of bytes that went through to it. -/
structure CountedSink where
  sink : Sink
  written : Nat := 0

/-- Writes as many of the bytes as there is room for, and says how many that were. -/
def Sink.write (sink : Sink) (bytes : Bytes) : Nat × Sink :=
  let taken := min bytes.length sink.room
  (taken, { room := sink.room - taken, bytes := sink.bytes ++ bytes.take taken })

/-- Writes through the counter, which counts the bytes that were taken. -/
def CountedSink.write (counted : CountedSink) (bytes : Bytes) : Nat × CountedSink :=
  let (taken, sink) := counted.sink.write bytes
  (taken, { sink, written := counted.written + taken })

end JvmAssembler
