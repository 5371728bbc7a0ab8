import IspStream.Main
import IspStream.Proofs.Clock
import IspStream.Proofs.Blocks.Scan
import IspStream.Proofs.Blocks.Locality
import IspStream.Proofs.Decoding.AddressMap
import IspStream.Proofs.Decoding.Placement
import IspStream.Proofs.Decoding.Failure
import IspStream.Proofs.Decoding.Offset
import IspStream.Proofs.Decoding.Order
import IspStream.Proofs.Decoding.Edits
import IspStream.Proofs.Records.RoundTrip
import IspStream.Proofs.Records.Damage
import IspStream.Proofs.Records.Grammar
import IspStream.Proofs.Encoding.Shape
import IspStream.Proofs.Encoding.Restore
import IspStream.Proofs.Encoding.Layout
import IspStream.Proofs.Encoding.Writer
import IspStream.Proofs.Stream.Reader
import IspStream.Proofs.Script.Denotation
import IspStream.Proofs.Script.Emission
import IspStream.Proofs.Script.Refinement
import IspStream.Proofs.Script.Overlay
import IspStream.Proofs.Script.Failure
import IspStream.Proofs.Script.Sequence
import IspStream.Proofs.Script.Content
import IspStream.Proofs.Script.Faithful
import IspStream.Proofs.Script.Size
import IspStream.Proofs.Script.Spelling
import IspStream.Proofs.Script.Numerals
import IspStream.Proofs.Script.Log
import IspStream.Proofs.Stream.Decoding
import IspStream.Proofs.Files.Saving
import IspStream.Proofs.CommandLine.Warnings
import IspStream.Proofs.CommandLine.Delivery
import IspStream.Proofs.CommandLine.Failure
import IspStream.Proofs.Safety.Compiling
import IspStream.Proofs.Safety.Counting
import IspStream.Proofs.Safety.Pipeline
