import HavokScript.Cbor.Model
import HavokScript.Chunk.Decode
import HavokScript.Chunk.Listing
import HavokScript.Command.Flags
import HavokScript.Decompile.Pipeline
import HavokScript.Settings.Search
import HavokScript.Tree.Outline
import HavokScript.Tree.Source

/-!
# The command

The command decodes one chunk file and writes its listing, its source and, if the settings name
paths for them, its export and the outline of its tree. Everything is computed before anything is
written. With no input or more than one it does nothing. What is logged on the way is left out.
-/

namespace HavokScript

/-- Why the command failed. -/
inductive CommandError where
  /-- the command line is wrong -/
  | usage (error : UsageError)
  /-- the settings file cannot be used -/
  | settings (error : SettingsError)
  /-- the input cannot be read -/
  | unreadable (path : Bytes)
  /-- the input is no chunk file -/
  | undecodable (input : Bytes) (error : DecodeError)
  /-- the input cannot be decompiled -/
  | notDecompiled (input : Bytes) (error : DecompileError)
  /-- an output cannot be written -/
  | unwritable (path : Bytes)

/-- The text of an error. -/
def CommandError.message : CommandError → Bytes
  | usage error => error.message
  | settings error => error.message
  | unreadable path => utf8 "cannot read " ++ path
  | undecodable input error => input ++ utf8 ": " ++ error.message
  | notDecompiled input error => input ++ utf8 ": " ++ error.message
  | unwritable path => utf8 "cannot write " ++ path

namespace Command

/-- What `--help` prints. -/
def helpText : Bytes := utf8 "Reads a compiled Havok-script chunk and writes two files: a raw
disassembly listing and the decompiled pseudo-source.

Settings are read from the nearest luidec.toml above the input file;
flags override them.

Usage:
  luidec <file> [flags]

Flags:
      --dump-tree string   Also write the decompiled tree to this path
      --export string      Also write the decoded chunk as CBOR to this path
  -h, --help               help for luidec
      --log-file string    Write logs to this file instead of stderr
      --no-inline          Skip register inlining
      --no-structure       Skip loop recovery
      --no-use-counts      Omit use counts on assignment targets
      --out-dec string     Decompiled output path
      --out-dis string     Disassembly output path
  -v, --verbose count      Increase log verbosity (repeatable)
"

/-- The outputs for the content of an input, as paths of the settings and contents, in the order
they are written. -/
def outputs (s : Settings) (input content : Bytes) :
    Except CommandError (List (Bytes × Bytes)) := do
  let file ← (ChunkFile.decode content).mapError (.undecodable input)
  let tree ← (file.decompile ⟨s.structured, s.inlined, []⟩).mapError (.notDecompiled input)
  return [(s.listingPath, file.listing), (s.sourcePath, tree.print s.showUseCounts),
    (s.exportPath, file.exported), (s.treePath, tree.dump)]

/-- The outputs that are written: those with a path, which is resolved. -/
def resolved (s : Settings) (files : List (Bytes × Bytes)) : List (Bytes × Bytes) :=
  (files.filter (·.1 ≠ [])).map fun f => (s.resolve f.1, f.2)

variable {m : Type → Type} [Monad m] [MonadFiles m]

/-- Writes files one after the other, up to the first that cannot be written. -/
def writeAll : List (Bytes × Bytes) → ExceptT CommandError m Unit
  | [] => return ()
  | (path, content) :: rest => do
    if ← (MonadFiles.write path content : m _) then writeAll rest else throw (.unwritable path)

/-- The settings for an input: those of the nearest settings file, or the standard ones, with the
flags applied. -/
def settingsFor (flags : Flags) (input : Bytes) : ExceptT CommandError m Settings := do
  let found ← (Settings.find (Path.directory input)).adapt .settings
  return flags.override (found.getD .standard)

/-- Decompiles one input. -/
def decompileFile (flags : Flags) (input : Bytes) : ExceptT CommandError m Unit := do
  let s ← settingsFor flags input
  match ← (MonadFiles.read? input : m _) with
  | none => throw (.unreadable input)
  | some content => writeAll (resolved s (← liftExcept (outputs s input content)))

/-- Runs the command with the given arguments; the result is what it prints. -/
def run (arguments : List Bytes) : ExceptT CommandError m Bytes := do
  match Request.ofArguments arguments with
  | .error e => throw (.usage e)
  | .ok r =>
    if r.flags.help then return helpText
    match r.inputs with
    | [input] => do
      decompileFile r.flags input
      return []
    | _ => return []

end Command

end HavokScript
