/-!
# EvmToolchain.Opcode

The opcodes of the machine that carry no immediate, with their table: the
encoding byte, the name, and how many stack items each consumes and produces.

Pushes carry an immediate and `JUMPDEST` a label; they are instructions of
their own and not in this table. Bytes of the table and opcodes determine
each other (`Opcode.ofByte?_eq_some_iff`).
-/

namespace EvmToolchain

/-- An opcode without an immediate. -/
inductive Opcode
  | stop | add | mul | sub | div | sdiv | mod | smod | addMod | mulMod | exp | signExtend
  | lt | gt | slt | sgt | eq | isZero | and | or | xor | not | byte | shl | shr | sar
  | sha3 | address | balance | origin | caller | callValue | callDataLoad | callDataSize
  | callDataCopy | codeSize | codeCopy | gasPrice | extCodeSize | extCodeCopy | returnDataSize
  | returnDataCopy | extCodeHash | blockHash | coinbase | timestamp | number | difficulty
  | gasLimit | chainId | selfBalance
  | pop | mload | mstore | mstore8 | sload | sstore | jump | jumpi | getPc | msize | gas
  /-- `DUP(n+1)`: copy the item `n` below the top. -/
  | dup (n : Fin 16)
  /-- `SWAP(n+1)`: exchange the top with the item `n+1` below it. -/
  | swap (n : Fin 16)
  /-- `LOG(n)`: emit a log entry with `n` topics. -/
  | log (n : Fin 5)
  | create | call | callCode | ret | delegateCall | create2 | staticCall | revert | invalid
  | selfDestruct
  deriving Repr, DecidableEq

namespace Opcode

/-- A row of the opcode table. -/
structure Row where
  /-- The encoding. -/
  byte : UInt8
  name : String
  /-- The number of stack items consumed. -/
  pops : Nat
  /-- The number of stack items produced. -/
  pushes : Nat
  deriving Repr, DecidableEq

/-- The opcode table. -/
def row : Opcode → Row
  | stop => ⟨0x00, "STOP", 0, 0⟩
  | add => ⟨0x01, "ADD", 2, 1⟩
  | mul => ⟨0x02, "MUL", 2, 1⟩
  | sub => ⟨0x03, "SUB", 2, 1⟩
  | div => ⟨0x04, "DIV", 2, 1⟩
  | sdiv => ⟨0x05, "SDIV", 2, 1⟩
  | mod => ⟨0x06, "MOD", 2, 1⟩
  | smod => ⟨0x07, "SMOD", 2, 1⟩
  | addMod => ⟨0x08, "ADDMOD", 3, 1⟩
  | mulMod => ⟨0x09, "MULMOD", 3, 1⟩
  | exp => ⟨0x0a, "EXP", 2, 1⟩
  | signExtend => ⟨0x0b, "SIGNEXTEND", 2, 1⟩
  | lt => ⟨0x10, "LT", 2, 1⟩
  | gt => ⟨0x11, "GT", 2, 1⟩
  | slt => ⟨0x12, "SLT", 2, 1⟩
  | sgt => ⟨0x13, "SGT", 2, 1⟩
  | eq => ⟨0x14, "EQ", 2, 1⟩
  | isZero => ⟨0x15, "ISZERO", 1, 1⟩
  | and => ⟨0x16, "AND", 2, 1⟩
  | or => ⟨0x17, "OR", 2, 1⟩
  | xor => ⟨0x18, "XOR", 2, 1⟩
  | not => ⟨0x19, "NOT", 1, 1⟩
  | byte => ⟨0x1a, "BYTE", 2, 1⟩
  | shl => ⟨0x1b, "SHL", 2, 1⟩
  | shr => ⟨0x1c, "SHR", 2, 1⟩
  | sar => ⟨0x1d, "SAR", 2, 1⟩
  | sha3 => ⟨0x20, "SHA3", 2, 1⟩
  | address => ⟨0x30, "ADDRESS", 0, 1⟩
  | balance => ⟨0x31, "BALANCE", 1, 1⟩
  | origin => ⟨0x32, "ORIGIN", 0, 1⟩
  | caller => ⟨0x33, "CALLER", 0, 1⟩
  | callValue => ⟨0x34, "CALLVALUE", 0, 1⟩
  | callDataLoad => ⟨0x35, "CALLDATALOAD", 1, 1⟩
  | callDataSize => ⟨0x36, "CALLDATASIZE", 0, 1⟩
  | callDataCopy => ⟨0x37, "CALLDATACOPY", 3, 0⟩
  | codeSize => ⟨0x38, "CODESIZE", 0, 1⟩
  | codeCopy => ⟨0x39, "CODECOPY", 3, 0⟩
  | gasPrice => ⟨0x3a, "GASPRICE", 0, 1⟩
  | extCodeSize => ⟨0x3b, "EXTCODESIZE", 1, 1⟩
  | extCodeCopy => ⟨0x3c, "EXTCODECOPY", 4, 0⟩
  | returnDataSize => ⟨0x3d, "RETURNDATASIZE", 0, 1⟩
  | returnDataCopy => ⟨0x3e, "RETURNDATACOPY", 3, 0⟩
  | extCodeHash => ⟨0x3f, "EXTCODEHASH", 1, 1⟩
  | blockHash => ⟨0x40, "BLOCKHASH", 1, 1⟩
  | coinbase => ⟨0x41, "COINBASE", 0, 1⟩
  | timestamp => ⟨0x42, "TIMESTAMP", 0, 1⟩
  | number => ⟨0x43, "NUMBER", 0, 1⟩
  | difficulty => ⟨0x44, "DIFFICULTY", 0, 1⟩
  | gasLimit => ⟨0x45, "GASLIMIT", 0, 1⟩
  | chainId => ⟨0x46, "CHAINID", 0, 1⟩
  | selfBalance => ⟨0x47, "SELFBALANCE", 0, 1⟩
  | pop => ⟨0x50, "POP", 1, 0⟩
  | mload => ⟨0x51, "MLOAD", 1, 1⟩
  | mstore => ⟨0x52, "MSTORE", 2, 0⟩
  | mstore8 => ⟨0x53, "MSTORE8", 2, 0⟩
  | sload => ⟨0x54, "SLOAD", 1, 1⟩
  | sstore => ⟨0x55, "SSTORE", 2, 0⟩
  | jump => ⟨0x56, "JUMP", 1, 0⟩
  | jumpi => ⟨0x57, "JUMPI", 2, 0⟩
  | getPc => ⟨0x58, "GETPC", 0, 1⟩
  | msize => ⟨0x59, "MSIZE", 0, 1⟩
  | gas => ⟨0x5a, "GAS", 0, 1⟩
  | dup n => ⟨0x80 + UInt8.ofNat n, "DUP" ++ toString (n.val + 1), n + 1, n + 2⟩
  | swap n => ⟨0x90 + UInt8.ofNat n, "SWAP" ++ toString (n.val + 1), n + 2, n + 2⟩
  | log n => ⟨0xa0 + UInt8.ofNat n, "LOG" ++ toString n.val, n + 2, 0⟩
  | create => ⟨0xf0, "CREATE", 3, 1⟩
  | call => ⟨0xf1, "CALL", 7, 1⟩
  | callCode => ⟨0xf2, "CALLCODE", 7, 1⟩
  | ret => ⟨0xf3, "RETURN", 2, 0⟩
  | delegateCall => ⟨0xf4, "DELEGATECALL", 6, 1⟩
  | create2 => ⟨0xf5, "CREATE2", 3, 1⟩
  | staticCall => ⟨0xfa, "STATICCALL", 6, 1⟩
  | revert => ⟨0xfd, "REVERT", 2, 0⟩
  | invalid => ⟨0xfe, "INVALID", 0, 0⟩
  | selfDestruct => ⟨0xff, "SELFDESTRUCT", 1, 0⟩

/-- All opcodes, in the order of their bytes. -/
def all : List Opcode :=
  [stop, add, mul, sub, div, sdiv, mod, smod, addMod, mulMod, exp, signExtend, lt, gt, slt, sgt,
   eq, isZero, and, or, xor, not, byte, shl, shr, sar, sha3, address, balance, origin, caller,
   callValue, callDataLoad, callDataSize, callDataCopy, codeSize, codeCopy, gasPrice, extCodeSize,
   extCodeCopy, returnDataSize, returnDataCopy, extCodeHash, blockHash, coinbase, timestamp,
   number, difficulty, gasLimit, chainId, selfBalance, pop, mload, mstore, mstore8, sload, sstore,
   jump, jumpi, getPc, msize, gas]
    ++ (List.finRange 16).map dup ++ (List.finRange 16).map swap ++ (List.finRange 5).map log
    ++ [create, call, callCode, ret, delegateCall, create2, staticCall, revert, invalid, selfDestruct]

/-- The encoding. -/
def toByte (o : Opcode) : UInt8 := o.row.byte

/-- The name. -/
def name (o : Opcode) : String := o.row.name

/-- The number of stack items consumed. -/
def pops (o : Opcode) : Nat := o.row.pops

/-- The number of stack items produced. -/
def pushes (o : Opcode) : Nat := o.row.pushes

/-- For each byte the opcode that it encodes. -/
def byteTable : Array (Option Opcode) :=
  Array.ofFn fun b : Fin 256 => all.find? (·.toByte == UInt8.ofNat b)

/-- The opcode that a byte encodes. -/
def ofByte? (b : UInt8) : Option Opcode := byteTable.getD b.toNat none

/-- The opcode of the given name. -/
def ofName? (s : String) : Option Opcode := all.find? (·.name == s)

/-! ### Bytes and names determine opcodes -/

theorem ofByte?_eq_find? (b : UInt8) : ofByte? b = all.find? (·.toByte == b) := by
  have hb : b.toNat < 256 := b.toNat_lt
  simp [ofByte?, byteTable, Array.getD, hb]

theorem toByte_of_ofByte? {b : UInt8} {o : Opcode} (h : ofByte? b = some o) : o.toByte = b := by
  rw [ofByte?_eq_find?] at h
  simpa using List.find?_some h

theorem ofByte?_toByte (o : Opcode) : ofByte? o.toByte = some o := by
  rw [ofByte?_eq_find?]
  cases o with
  | dup n => revert n; decide
  | swap n => revert n; decide
  | log n => revert n; decide
  | _ => rfl

theorem ofByte?_eq_some_iff {b : UInt8} {o : Opcode} : ofByte? b = some o ↔ o.toByte = b :=
  ⟨toByte_of_ofByte?, fun h => h ▸ ofByte?_toByte o⟩

theorem name_of_ofName? {s : String} {o : Opcode} (h : ofName? s = some o) : o.name = s := by
  simpa using List.find?_some h

theorem ofName?_name (o : Opcode) : ofName? o.name = some o := by
  cases o with
  | dup n => revert n; decide
  | swap n => revert n; decide
  | log n => revert n; decide
  | _ => rfl

end Opcode

end EvmToolchain
