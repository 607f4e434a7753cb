import SchemaCompiler.Digest.Sha256
import SchemaCompiler.Json.Write

/-!
# Checksums

A checksum is a SHA-256 digest in lower-case hexadecimal; that of a JSON value is taken over its
compact text.
-/

namespace SchemaCompiler

structure Checksum where
  hex : String
deriving DecidableEq, Repr

namespace Checksum

private def byteDigits (byte : UInt8) : List Char :=
  [Nat.digitChar (byte.toNat / 16), Nat.digitChar (byte.toNat % 16)]

def ofBytes (bytes : List UInt8) : Checksum :=
  ⟨String.ofList ((Sha256.hash bytes).flatMap byteDigits)⟩

def ofText (text : String) : Checksum :=
  ofBytes text.toUTF8.toList

def ofJson (value : Json) : Checksum :=
  ofText value.text

/-- The leading digits. -/
def short (checksum : Checksum) : String :=
  String.ofList (checksum.hex.toList.take 12)

end Checksum

end SchemaCompiler
