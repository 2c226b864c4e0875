/-
  Saved states as bytes.

  The format is: the four bytes `6502`, a version number of four bytes, the
  program counter, A, X, Y, S, the packed flags and eight bytes of cycle count;
  in a checkpoint 65536 bytes of memory follow.  Numbers have their low byte
  first.  Reading takes the sections one after the other and reports the first
  that is too short or is not what it should be; bytes behind the last section
  are ignored.
-/
import Nmos6502.Snapshot

namespace Nmos6502

namespace Snapshot

/-- The bytes that every saved state begins with. -/
def magic : List Byte := [0x36, 0x35, 0x30, 0x32]

/-- The only version of the format. -/
def version : Nat := 1

end Snapshot

inductive Section where
  | header | cpuState | memory
deriving DecidableEq

namespace Section

def name : Section → String
  | .header => "header"
  | .cpuState => "cpu state"
  | .memory => "memory"

def size : Section → Nat
  | .header => 8
  | .cpuState => 15
  | .memory => 65536

end Section

/-- Why bytes are not a saved state. -/
inductive FormatError where
  | badMagic (found : List Byte)
  | unsupportedVersion (found : Nat)
  | truncated (part : Section) (available : Nat)
deriving DecidableEq

def FormatError.message : FormatError → String
  | .badMagic found =>
    "invalid snapshot magic [" ++ ", ".intercalate (found.map Hex.ofByte) ++ "]"
  | .unsupportedVersion found =>
    "incompatible snapshot version: expected " ++ toString Snapshot.version ++ ", got " ++
      toString found
  | .truncated part available =>
    "snapshot truncated in " ++ part.name ++ ": needed " ++ toString part.size ++
      " more bytes, " ++ toString available ++ " available"

/-- Splits a section off the front. -/
def Section.take (part : Section) (bytes : List Byte) :
    Except FormatError (List Byte × List Byte) :=
  if bytes.length < part.size then .error (.truncated part bytes.length)
  else .ok (bytes.splitAt part.size)

namespace Snapshot

def encode (s : Snapshot) : List Byte :=
  magic ++ leBytes 4 version ++ leBytes 2 s.pc.toNat ++ [s.a, s.x, s.y, s.s, s.status] ++
    leBytes 8 s.cycles.toNat

def checkHeader (header : List Byte) : Except FormatError Unit :=
  if header.take 4 ≠ magic then .error (.badMagic (header.take 4))
  else if leValue (header.drop 4) ≠ version then
    .error (.unsupportedVersion (leValue (header.drop 4)))
  else .ok ()

/-- The registers from their section; the bit of the flags that has no flag
    behind it is set. -/
def ofSection (bytes : List Byte) : Snapshot where
  pc := BitVec.ofNat 16 (leValue (bytes.take 2))
  a := bytes.getD 2 0
  x := bytes.getD 3 0
  y := bytes.getD 4 0
  s := bytes.getD 5 0
  status := bytes.getD 6 0 ||| 0x20
  cycles := BitVec.ofNat 64 (leValue (bytes.drop 7))

/-- Reads header and registers, and gives what comes behind them as well. -/
def decodeFront (bytes : List Byte) : Except FormatError (Snapshot × List Byte) := do
  let (header, rest) ← Section.header.take bytes
  checkHeader header
  let (cpu, rest) ← Section.cpuState.take rest
  return (ofSection cpu, rest)

def decode (bytes : List Byte) : Except FormatError Snapshot := do
  let (s, _) ← decodeFront bytes
  return s

end Snapshot

namespace Checkpoint

def encodedSize : Nat := Section.header.size + Section.cpuState.size + Section.memory.size

/-- The snapshot with the memory behind it. -/
def encode (c : Checkpoint) : List Byte := c.cpu.encode ++ c.memory.toList

def decode (bytes : List Byte) : Except FormatError Checkpoint := do
  let (cpu, rest) ← Snapshot.decodeFront bytes
  let (image, _) ← Section.memory.take rest
  return ⟨cpu, .ofImage image⟩

end Checkpoint

end Nmos6502
