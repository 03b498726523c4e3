import HavokScript.Cbor.Model
import HavokScript.Chunk.Assemble
import HavokScript.Chunk.Decode
import HavokScript.Chunk.Listing
import HavokScript.Command.Run
import HavokScript.Decompile.Pipeline
import HavokScript.Main
import HavokScript.Proofs.Cbor.Export
import HavokScript.Proofs.Cbor.Imported
import HavokScript.Proofs.Cbor.Reading
import HavokScript.Proofs.Cbor.Records
import HavokScript.Proofs.Cbor.RoundTrip
import HavokScript.Proofs.Chunk.Decoded
import HavokScript.Proofs.Chunk.Delimited
import HavokScript.Proofs.Chunk.Extent
import HavokScript.Proofs.Chunk.Fields
import HavokScript.Proofs.Chunk.Layouts
import HavokScript.Proofs.Chunk.Listing
import HavokScript.Proofs.Chunk.Placement
import HavokScript.Proofs.Chunk.RoundTrip
import HavokScript.Proofs.Chunk.Words
import HavokScript.Proofs.Command.Writes
import HavokScript.Proofs.Decompile.Accesses
import HavokScript.Proofs.Decompile.AddressOrder
import HavokScript.Proofs.Decompile.Bindings
import HavokScript.Proofs.Decompile.Effects
import HavokScript.Proofs.Decompile.Exhaustion
import HavokScript.Proofs.Decompile.Failures
import HavokScript.Proofs.Decompile.Folding
import HavokScript.Proofs.Decompile.Independence
import HavokScript.Proofs.Decompile.Inlining
import HavokScript.Proofs.Decompile.JumpTargets
import HavokScript.Proofs.Decompile.Keys
import HavokScript.Proofs.Decompile.LeafValues
import HavokScript.Proofs.Decompile.Literals
import HavokScript.Proofs.Decompile.LoopBounds
import HavokScript.Proofs.Decompile.LoopSpans
import HavokScript.Proofs.Decompile.LoopUpdates
import HavokScript.Proofs.Decompile.Meaning
import HavokScript.Proofs.Decompile.Modular
import HavokScript.Proofs.Decompile.Operands
import HavokScript.Proofs.Decompile.Potential
import HavokScript.Proofs.Decompile.Reinlining
import HavokScript.Proofs.Decompile.Relocation
import HavokScript.Proofs.Decompile.Scanning
import HavokScript.Proofs.Decompile.Settled
import HavokScript.Proofs.Decompile.Sharing
import HavokScript.Proofs.Decompile.Shifting
import HavokScript.Proofs.Decompile.Statements
import HavokScript.Proofs.Decompile.Substitution
import HavokScript.Proofs.Decompile.TreeSize
import HavokScript.Proofs.Decompile.Unrolling
import HavokScript.Proofs.Decompile.UseCounts
import HavokScript.Proofs.Session
import HavokScript.Proofs.Settings.Search
import HavokScript.Proofs.Text.Escapes
import HavokScript.Proofs.Tree.Finding
import HavokScript.Proofs.Tree.Moved
import HavokScript.Proofs.Tree.Printing
import HavokScript.Proofs.Tree.Registers
import HavokScript.Proofs.Tree.Shape
import HavokScript.Session
import HavokScript.Settings.Search
import HavokScript.Tree.Outline
import HavokScript.Tree.Source
