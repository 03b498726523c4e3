import HavokScript.Chunk.Model

/-!
# Failures of the decompiler

A failure has the address of the instruction, or of the branch target, it is about. While
instructions are lowered it also names the opcode.
-/

namespace HavokScript

/-- Why a function cannot be decompiled. -/
inductive DecompileCause where
  /-- the instruction has no such operand -/
  | missingOperand (index : Nat)
  /-- the function has no such constant -/
  | constantIndex (index : Int) (count : Nat) (label : Bytes)
  /-- a name is wanted and the constant is no string -/
  | globalKey (index : Int) (tag : Tag)
  /-- constants of this type cannot be written in the script language -/
  | constantKind (index : Int) (tag : Tag)
  /-- a branch leads to no statement -/
  | locationNotFound
  /-- the branch of a numeric loop does not lead behind a loop start -/
  | badForPrep
  /-- the register was not written before it is read -/
  | unboundRegister (index : Int)
  deriving DecidableEq, Repr

/-- A constant as failures name it. -/
def constantNote (index : Int) (tag : Tag) : Bytes :=
  utf8 ": K(" ++ Numeral.int index ++ utf8 ") is " ++ tag.name

/-- The text of a cause. -/
def DecompileCause.message : DecompileCause → Bytes
  | missingOperand index => utf8 "missing operand " ++ Numeral.nat index
  | constantIndex index count label =>
    utf8 "constant index out of range: " ++ Numeral.int index ++ utf8 " of " ++
      Numeral.nat count ++ utf8 " in " ++ label
  | globalKey index tag => utf8 "global key is not a string constant" ++ constantNote index tag
  | constantKind index tag => utf8 "constant kind has no literal form" ++ constantNote index tag
  | locationNotFound => utf8 "location not found"
  | badForPrep => utf8 "bad for prep"
  | unboundRegister index =>
    utf8 "register read before it was written: R" ++ Numeral.int index

/-- A failure of the decompiler. -/
inductive DecompileError where
  /-- a failure at an address, in an instruction with this opcode if there is one -/
  | failed (address : Int) (op : Option UInt8) (cause : DecompileCause)
  /-- a stage refused the statements of a function -/
  | refused
  /-- there is no function to decompile, a branch that closes a loop leads forward past itself, so
  that the loop has no body, or a statement is missing where a branch may lead -/
  | broken
  deriving DecidableEq, Repr

/-- The text of a failure. -/
def DecompileError.message : DecompileError → Bytes
  | failed address none cause =>
    utf8 "decompile error at 0x" ++ Numeral.hex 0 address ++ utf8 ": " ++ cause.message
  | failed address (some op) cause =>
    utf8 "decompile error at 0x" ++ Numeral.hex 0 address ++ utf8 " (" ++ Opcode.name op ++
      utf8 "): " ++ cause.message
  | refused => utf8 "stage failed"
  | broken => utf8 "broken loop"

end HavokScript
