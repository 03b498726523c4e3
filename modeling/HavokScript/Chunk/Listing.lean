import HavokScript.Chunk.Model

/-!
# Listings

The raw disassembly of a chunk file: directives for the header, then every function with its
constants and instructions, each before its closures.
-/

namespace HavokScript

/-- The text with capital letters made small. -/
def lowerCase (s : Bytes) : Bytes := s.map fun b => if 65 ≤ b ∧ b ≤ 90 then b + 32 else b

/-- A directive on a line of its own. -/
def directive (name : String) (argument : Bytes) : Bytes :=
  utf8 "." ++ utf8 name ++ utf8 " " ++ argument ++ utf8 "\n"

/-- The directive of a type record. -/
def TypeRecord.listing (t : TypeRecord) : Bytes :=
  directive "type" (Numeral.nat t.id.toNat ++ utf8 " " ++ Quoted.quote t.name)

/-- The directives of a header. -/
def Header.listing (h : Header) : Bytes :=
  directive "format" (formatName h.format) ++
  directive "endianness" (lowerCase (endiannessName h.endianness)) ++
  directive "int_size" (Numeral.nat h.intSize.toNat) ++
  directive "size_t_size" (Numeral.nat h.sizeSize.toNat) ++
  directive "instruction_size" (Numeral.nat h.instructionSize.toNat) ++
  directive "number_size" (Numeral.nat h.numberSize.toNat) ++
  directive "number_type" (lowerCase (numberTypeName h.numberType)) ++
  directive "build_flags" (Numeral.nat h.buildFlags.toNat) ++
  directive "referenced_mode" (lowerCase (sharingModeName h.sharingMode)) ++
  h.types.items.flatMap TypeRecord.listing ++ utf8 "\n"

/-- The directives of constants, the first of which has the index `i`. -/
def constantListing : Nat → List Constant → Bytes
  | _, [] => []
  | i, c :: cs =>
    directive "constant" (c.text ++ utf8 " ; " ++ Numeral.nat i) ++ constantListing (i + 1) cs

/-- The listing of a function with `closures` closures, without them. -/
def Code.listing (c : Code) (closures : Nat) : Bytes :=
  directive "function" c.label ++
  directive "upval_count" (Numeral.nat c.upvalues.toNat) ++
  directive "param_count" (Numeral.nat c.parameters.toNat) ++
  directive "varg_flags" (Numeral.nat c.varargFlags.toNat) ++
  directive "reg_count" (Numeral.nat c.registers.toNat) ++
  directive "instr_count" (Numeral.nat c.instructions.items.length) ++
  directive "const_count" (Numeral.nat c.constants.items.length) ++
  directive "func_count" (Numeral.nat closures) ++
  constantListing 0 c.constants.items ++
  c.instructions.items.flatMap (fun i => i.text ++ utf8 "\n") ++ utf8 "\n"

mutual

/-- The listing of a prototype and all below it. -/
def Prototype.listing : Prototype → Bytes
  | ⟨code, none⟩ => code.listing 0
  | ⟨code, some ps⟩ => code.listing ps.length ++ Prototype.listings ps

/-- The listings of a list of prototypes, one after the other. -/
def Prototype.listings : List Prototype → Bytes
  | [] => []
  | p :: ps => p.listing ++ Prototype.listings ps

end

/-- The listing of a chunk file. -/
def ChunkFile.listing (f : ChunkFile) : Bytes :=
  f.header.listing ++
    match f.root with
    | some p => p.listing
    | none => []

end HavokScript
