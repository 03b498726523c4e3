import HavokScript.Settings.Basic
import HavokScript.Text.Escaped
import HavokScript.Text.Integer

/-!
# The command line

Flags and inputs may be mixed. `--name value` and `--name=value` set a text, `--name` a switch,
which may also have a truth value behind an equals sign. `-v` counts, and short flags may be
written in one group. Behind `--` there are only inputs.

`Request.ofArguments` reads the arguments in order and stops at the first one that is wrong;
`Flags.override` applies flags to settings.
-/

namespace HavokScript

/-- A flag of the command. -/
inductive Flag where
  /-- how much is logged -/
  | verbose
  /-- path of the log -/
  | logFile
  /-- path of the listing -/
  | outDis
  /-- path of the source -/
  | outDec
  /-- path of the export -/
  | outExport
  /-- path of the outline of the tree -/
  | dumpTree
  /-- loops are not recovered -/
  | noStructure
  /-- registers are not inlined -/
  | noInline
  /-- the source shows no use counts -/
  | noUseCounts
  /-- only help is printed -/
  | help
  deriving DecidableEq, Repr

namespace Flag

/-- The name of a flag. -/
def name : Flag → Bytes
  | verbose => utf8 "verbose"
  | logFile => utf8 "log-file"
  | outDis => utf8 "out-dis"
  | outDec => utf8 "out-dec"
  | outExport => utf8 "export"
  | dumpTree => utf8 "dump-tree"
  | noStructure => utf8 "no-structure"
  | noInline => utf8 "no-inline"
  | noUseCounts => utf8 "no-use-counts"
  | help => utf8 "help"

/-- All flags. -/
def all : List Flag :=
  [verbose, logFile, outDis, outDec, outExport, dumpTree, noStructure, noInline, noUseCounts, help]

/-- The letter of a flag that has one. -/
def letter? : Flag → Option UInt8
  | verbose => some 118
  | help => some 104
  | _ => none

/-- The flag with a name. -/
def ofName? (s : Bytes) : Option Flag := all.find? (·.name = s)

/-- The flag with a letter. -/
def ofLetter? (c : UInt8) : Option Flag := all.find? (·.letter? = some c)

/-- The value of a flag that stands alone; a flag for a text has none. -/
def alone? : Flag → Option Bytes
  | verbose => some (utf8 "+1")
  | noStructure | noInline | noUseCounts | help => some (utf8 "true")
  | logFile | outDis | outDec | outExport | dumpTree => none

/-- A flag as messages name it. -/
def title (f : Flag) : Bytes :=
  match f.letter? with
  | some c => utf8 "-" ++ [c] ++ utf8 ", --" ++ f.name
  | none => utf8 "--" ++ f.name

end Flag

/-! ## Errors -/

/-- Why the value of a flag is wrong. -/
inductive ValueFault where
  /-- the value of a switch is no truth value -/
  | switch
  /-- the value of a counter is no integer -/
  | counter (fault : Integer.Fault)
  deriving DecidableEq, Repr

/-- The text of a fault of the given value. -/
def ValueFault.message (value : Bytes) : ValueFault → Bytes
  | switch => utf8 "strconv.ParseBool: parsing " ++ Escaped.text value ++ utf8 ": invalid syntax"
  | counter .malformed =>
    utf8 "strconv.ParseInt: parsing " ++ Escaped.text value ++ utf8 ": invalid syntax"
  | counter .tooLarge =>
    utf8 "strconv.ParseInt: parsing " ++ Escaped.text value ++ utf8 ": value out of range"

/-- Why a command line is wrong. -/
inductive UsageError where
  /-- no flag can be read from the argument -/
  | badSyntax (argument : Bytes)
  /-- there is no flag with this name -/
  | unknownFlag (name : Bytes)
  /-- there is no flag with this letter, which starts the rest of a group -/
  | unknownLetter (letter : UInt8) (group : Bytes)
  /-- the last argument is a flag that needs a value -/
  | missingValue (argument : Bytes)
  /-- the flag does not take this value -/
  | badValue (flag : Flag) (value : Bytes) (fault : ValueFault)
  deriving DecidableEq, Repr

/-- The text of an error. -/
def UsageError.message : UsageError → Bytes
  | badSyntax argument => utf8 "bad flag syntax: " ++ argument
  | unknownFlag name => utf8 "unknown flag: --" ++ name
  | unknownLetter letter group =>
    utf8 "unknown shorthand flag: " ++ Escaped.character letter.toNat ++ utf8 " in -" ++ group
  | missingValue argument => utf8 "flag needs an argument: " ++ argument
  | badValue flag value fault =>
    utf8 "invalid argument " ++ Escaped.text value ++ utf8 " for " ++ Escaped.text flag.title ++
      utf8 " flag: " ++ fault.message value

/-! ## Values -/

/-- The flags that were given. -/
structure Flags where
  /-- the count, if the flag was given -/
  verbose : Option Int := none
  /-- path of the log, if it was given -/
  logFile : Option Bytes := none
  /-- path of the listing, if it was given -/
  outDis : Option Bytes := none
  /-- path of the source, if it was given -/
  outDec : Option Bytes := none
  /-- path of the export, if it was given -/
  outExport : Option Bytes := none
  /-- path of the outline, if it was given -/
  dumpTree : Option Bytes := none
  /-- loops are not recovered -/
  noStructure : Bool := false
  /-- registers are not inlined -/
  noInline : Bool := false
  /-- the source shows no use counts -/
  noUseCounts : Bool := false
  /-- only help is printed -/
  help : Bool := false
  deriving DecidableEq, Repr

/-- A truth value. -/
def switch? (value : Bytes) : Option Bool :=
  if value ∈ ["1", "t", "T", "TRUE", "true", "True"].map utf8 then some true
  else if value ∈ ["0", "f", "F", "FALSE", "false", "False"].map utf8 then some false
  else none

namespace Flags

/-- The value of a counter: one more, or the given number. -/
def count (fs : Flags) (value : Bytes) : Except UsageError Int :=
  if value = utf8 "+1" then .ok (wrap64 (fs.verbose.getD 0 + 1))
  else match Integer.read value with
    | .ok i => .ok i
    | .error fault => .error (.badValue .verbose value (.counter fault))

/-- The value of a switch. -/
def switch (f : Flag) (value : Bytes) : Except UsageError Bool :=
  match switch? value with
  | some b => .ok b
  | none => .error (.badValue f value .switch)

/-- Sets a flag. -/
def set (fs : Flags) (f : Flag) (value : Bytes) : Except UsageError Flags :=
  match f with
  | .verbose => do return { fs with verbose := some (← fs.count value) }
  | .logFile => .ok { fs with logFile := some value }
  | .outDis => .ok { fs with outDis := some value }
  | .outDec => .ok { fs with outDec := some value }
  | .outExport => .ok { fs with outExport := some value }
  | .dumpTree => .ok { fs with dumpTree := some value }
  | .noStructure => do return { fs with noStructure := ← switch f value }
  | .noInline => do return { fs with noInline := ← switch f value }
  | .noUseCounts => do return { fs with noUseCounts := ← switch f value }
  | .help => do return { fs with help := ← switch f value }

/-- The settings with the flags applied. -/
def override (fs : Flags) (s : Settings) : Settings :=
  { s with
    listingPath := fs.outDis.getD s.listingPath
    sourcePath := fs.outDec.getD s.sourcePath
    exportPath := fs.outExport.getD s.exportPath
    treePath := fs.dumpTree.getD s.treePath
    structured := s.structured && !fs.noStructure
    inlined := s.inlined && !fs.noInline
    showUseCounts := s.showUseCounts && !fs.noUseCounts
    verbosity := wrap64 (s.verbosity + fs.verbose.getD 0)
    logPath := fs.logFile.getD s.logPath }

/-- Sets the flags of a group of letters. A group that goes on as `test.` is not read further. -/
def setGroup (fs : Flags) : Bytes → Except UsageError Flags
  | [] => .ok fs
  | c :: group =>
    if (utf8 "test.").isPrefixOf (c :: group) then .ok fs
    else match Flag.ofLetter? c with
      | none => .error (.unknownLetter c (c :: group))
      | some f =>
        match group with
        | 61 :: b :: value => fs.set f (b :: value)
        | _ => do setGroup (← fs.set f (f.alone?.getD [])) group

end Flags

/-! ## Arguments -/

/-- A command line. -/
structure Request where
  /-- the flags -/
  flags : Flags := {}
  /-- the arguments that are no flags -/
  inputs : List Bytes := []
  deriving DecidableEq, Repr

/-- The name of a long flag and the value behind its equals sign, from what follows the dashes. -/
def longParts (body : Bytes) : Bytes × Option Bytes :=
  match body.dropWhile (· ≠ 61) with
  | [] => (body, none)
  | _ :: value => (body.takeWhile (· ≠ 61), some value)

/-- Whether an argument is an input: a lone dash is one too. -/
def isInput (argument : Bytes) : Bool := argument.head? ≠ some 45 || argument.length = 1

namespace Request

/-- One more input. -/
def addInput (r : Request) (input : Bytes) : Request := { r with inputs := r.inputs ++ [input] }

/-- Reads arguments one after the other. -/
def read (r : Request) : List Bytes → Except UsageError Request
  | [] => .ok r
  | argument :: rest =>
    if isInput argument then read (r.addInput argument) rest
    else match argument with
      | 45 :: 45 :: body =>
        if body = [] then .ok { r with inputs := r.inputs ++ rest }
        else if body.head? = some 45 ∨ body.head? = some 61 then .error (.badSyntax argument)
        else match longParts body with
          | (name, value) =>
            match Flag.ofName? name with
            | none => .error (.unknownFlag name)
            | some f =>
              match value.or f.alone?, rest with
              | some v, rest => do read { r with flags := ← r.flags.set f v } rest
              | none, v :: rest => do read { r with flags := ← r.flags.set f v } rest
              | none, [] => .error (.missingValue argument)
      | group => do read { r with flags := ← r.flags.setGroup group.tail } rest

/-- The command line with the given arguments. -/
def ofArguments (arguments : List Bytes) : Except UsageError Request := read {} arguments

end Request

end HavokScript
