import MuonJs.Lib.StackCode
import MuonJs.Script.Context

/-!
# Bytecode

The instructions of the stack machine, and what each of them takes from the
stack, leaves there and where it continues.
-/

namespace MuonJs
namespace Script

open Cache (Bytes)
open StackCode

/-- `OpCode`. -/
inductive OpCode
  | nop
  | const
  | loadGlobal
  | storeGlobal
  | loadLocal
  | storeLocal
  | add
  | sub
  | mul
  | div
  | mod
  | eq
  | neq
  | strictEq
  | strictNeq
  | lt
  | gt
  | le
  | ge
  | not
  | and
  | or
  | drop
  | dup
  | jump
  | jumpIfFalse
  | jumpIfTrue
  | return
  | call
  | getProp
  | setProp
  | getElem
  | concat
  | toNumber
  | typeof
  | neg
  | bitAnd
  | bitOr
  | bitXor
  | shl
  | shr
  | uShr
  | bitNot
  | incLocal
  | pop
  | callMethod
  deriving DecidableEq

/-- `Instruction`. -/
structure Instruction where
  op : OpCode
  a : UInt32
  b : UInt32
  deriving DecidableEq

/-- `BytecodeFunction`, the only function of a module. -/
structure BytecodeFunction where
  code : List Instruction
  constants : List JSValue
  locals : List Bytes

/-- `BytecodeFunction::new`. -/
def BytecodeFunction.new : BytecodeFunction := ⟨[], [], []⟩

/-- What an instruction takes from the stack, leaves there, and where it
continues. -/
def Instruction.shape (ins : Instruction) : Shape :=
  match ins.op with
  | .nop | .incLocal => ⟨0, 0, .next⟩
  | .const | .loadLocal | .loadGlobal => ⟨0, 1, .next⟩
  | .storeLocal | .storeGlobal | .not | .toNumber | .typeof | .neg | .bitNot => ⟨1, 1, .next⟩
  | .add | .sub | .mul | .div | .mod | .eq | .neq | .strictEq | .strictNeq | .lt | .gt | .le
  | .ge | .and | .or | .getProp | .getElem | .concat | .bitAnd | .bitOr | .bitXor | .shl
  | .shr | .uShr => ⟨2, 1, .next⟩
  | .setProp => ⟨3, 1, .next⟩
  | .drop | .pop => ⟨1, 0, .next⟩
  | .dup => ⟨1, 2, .next⟩
  | .jump => ⟨0, 0, .jump ins.a.toNat⟩
  | .jumpIfFalse | .jumpIfTrue => ⟨1, 0, .branch ins.a.toNat⟩
  | .return => ⟨1, 0, .stop⟩
  | .call => ⟨ins.a.toNat + 1, 1, .next⟩
  | .callMethod => ⟨ins.a.toNat + 2, 1, .next⟩

end Script
end MuonJs
