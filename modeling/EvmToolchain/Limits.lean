/-!
# EvmToolchain.Limits

Sizes that the machine prescribes, and limits of what is read and written.
-/

namespace EvmToolchain

/-- The most items the operand stack can hold. -/
def maxStack : Nat := 1024

/-- The number of bytes in a word. -/
def wordBytes : Nat := 32

/-- The memory that a program can use, in bytes. -/
def maxMemory : Nat := 0x1000000

/-- The most digits of a decimal number that is read or written. -/
def maxDigits : Nat := 4300

/-- How deep collections may nest in a settings file. -/
def maxNesting : Nat := 488

/-- The lengths that a sequence can have are below this number. -/
def lengthBound : Nat := 0x8000000000000000

/-- The lengths that a byte string can have are below this number: it takes up
some bytes besides its own. -/
def bytesBound : Nat := lengthBound - 33

/-- Byte strings of this length and above find no room. -/
def roomBound : Nat := 0x1000000000

end EvmToolchain
