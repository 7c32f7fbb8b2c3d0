import NetworkPrograms.Foundations.Words

/-!
# What the servers call

The servers that answer in capitals read from a descriptor and turn what they have read into
upper case. What `read` can give and what `toupper` does is the same for all of them.
-/
namespace NetworkPrograms.Kernel

/-- What `read` gives: bytes, none of them at the end of the stream, or an error, of which a
reset connection is one. -/
inductive ReadResult where
  | got (bytes : Bytes)
  | reset
  | error
  deriving DecidableEq

/-- `toupper` of the C locale. -/
def toupper (b : UInt8) : UInt8 := if 97 ≤ b ∧ b ≤ 122 then b - 32 else b

end NetworkPrograms.Kernel
