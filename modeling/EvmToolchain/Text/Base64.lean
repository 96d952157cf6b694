/-!
# EvmToolchain.Text.Base64

Bytes written with four characters of six bits each for three bytes. Characters
that are no digits are passed over, and a pair of signs for missing characters
ends the text.
-/

namespace EvmToolchain.Base64

/-- The value of a digit. -/
def digitValue? (c : Char) : Option Nat :=
  if 'A' ≤ c ∧ c ≤ 'Z' then some (c.toNat - 'A'.toNat)
  else if 'a' ≤ c ∧ c ≤ 'z' then some (c.toNat - 'a'.toNat + 26)
  else if '0' ≤ c ∧ c ≤ '9' then some (c.toNat - '0'.toNat + 52)
  else if c = '+' then some 62
  else if c = '/' then some 63
  else none

/-- What has been read of a group of four digits: how many digits, and the
bits that belong to no byte yet. -/
structure Group where
  digits : Nat := 0
  bits : Nat := 0
  /-- The signs for missing characters since the last digit. -/
  missing : Nat := 0

namespace Group

/-- The byte that a digit completes. -/
def byte (g : Group) (d : Nat) : List UInt8 :=
  match g.digits with
  | 0 => []
  | 1 => [UInt8.ofNat (g.bits * 4 + d / 16)]
  | 2 => [UInt8.ofNat (g.bits * 16 + d / 4)]
  | _ => [UInt8.ofNat (g.bits * 64 + d)]

/-- The group with another digit. -/
def add (g : Group) (d : Nat) : Group :=
  match g.digits with
  | 0 => ⟨1, d, 0⟩
  | 1 => ⟨2, d % 16, 0⟩
  | 2 => ⟨3, d % 4, 0⟩
  | _ => ⟨0, 0, 0⟩

end Group

/-- Reads the bytes of a text, of which a group has been read in part. A group
that is left incomplete without signs for what is missing is an error. -/
def read? (g : Group) : List Char → Option (List UInt8)
  | [] => if g.digits = 0 then some [] else none
  | '=' :: rest =>
    if g.digits < 2 then read? g rest
    else if 4 ≤ g.digits + g.missing + 1 then some []
    else read? { g with missing := g.missing + 1 } rest
  | c :: rest =>
    match digitValue? c with
    | none => read? g rest
    | some d => (read? (g.add d) rest).map (g.byte d ++ ·)

/-- The bytes that a text denotes. -/
def toBytes? (cs : List Char) : Option (List UInt8) := read? {} cs

end EvmToolchain.Base64
