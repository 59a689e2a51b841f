import WireRecords.Bytes.Hex
import WireRecords.Declaration
import WireRecords.Identifier
import WireRecords.Inspect.Program
import WireRecords.Json.Parse
import WireRecords.JsonView
import WireRecords.Layout
import WireRecords.Listing
import WireRecords.Log.Violation
import WireRecords.Main
import WireRecords.Proofs.CommaItems
import WireRecords.Proofs.Conformance
import WireRecords.Proofs.Delivery
import WireRecords.Proofs.EntryLines
import WireRecords.Proofs.Extent
import WireRecords.Proofs.FieldKeys
import WireRecords.Proofs.FieldLists
import WireRecords.Proofs.Files
import WireRecords.Proofs.FirstFault
import WireRecords.Proofs.Flattening
import WireRecords.Proofs.HexText
import WireRecords.Proofs.InPlace
import WireRecords.Proofs.IntegerSettings
import WireRecords.Proofs.JsonRoundTrip
import WireRecords.Proofs.JsonText
import WireRecords.Proofs.Matching
import WireRecords.Proofs.MetadataOrder
import WireRecords.Proofs.NumberedPaths
import WireRecords.Proofs.Outcomes
import WireRecords.Proofs.Precedence
import WireRecords.Proofs.RawBits
import WireRecords.Proofs.Reencoding
import WireRecords.Proofs.Reloading
import WireRecords.Proofs.Rotation
import WireRecords.Proofs.RoundTrip
import WireRecords.Proofs.Rows
import WireRecords.Proofs.ScalarDigits
import WireRecords.Proofs.SetAside
import WireRecords.Proofs.Violations
import WireRecords.Proofs.WordAccess
import WireRecords.Samples
import WireRecords.Settings
import WireRecords.Word
