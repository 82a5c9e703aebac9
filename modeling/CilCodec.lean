import CilCodec.Code.Symbols
import CilCodec.Import.HintName
import CilCodec.Import.Thunk
import CilCodec.Metadata.TableInfo
import CilCodec.Method.Body
import CilCodec.Proofs.Bytes.Reading
import CilCodec.Proofs.Bytes.Writing
import CilCodec.Proofs.Bytes.Extension
import CilCodec.Proofs.Bytes.Failing
import CilCodec.Proofs.Bytes.Looping
import CilCodec.Proofs.Bytes.Scripts
import CilCodec.Proofs.Code.Format
import CilCodec.Proofs.Code.Labels
import CilCodec.Proofs.Code.Reading
import CilCodec.Proofs.Code.Writing
import CilCodec.Proofs.Code.RoundTrip
import CilCodec.Proofs.Method.Header
import CilCodec.Proofs.Method.Handler
import CilCodec.Proofs.Method.Section
import CilCodec.Proofs.Method.Body
import CilCodec.Proofs.Method.RoundTrip
import CilCodec.Proofs.Method.Canonical
import CilCodec.Proofs.Method.SelfDelimiting
import CilCodec.Proofs.Method.Writing
import CilCodec.Proofs.Code.Editing
import CilCodec.Proofs.Code.Failing
import CilCodec.Proofs.Code.Commutation
import CilCodec.Proofs.Code.Tolerance
import CilCodec.Proofs.Bytes.Relocation
import CilCodec.Proofs.Code.Relocation
import CilCodec.Proofs.Method.SectionChain
import CilCodec.Proofs.Bytes.Advancing
import CilCodec.Proofs.Method.Leniency
import CilCodec.Proofs.Metadata.CodedIndex
import CilCodec.Proofs.Metadata.TokenRow
import CilCodec.Proofs.Metadata.Columns
import CilCodec.Proofs.Metadata.ColumnWidth
import CilCodec.Proofs.Metadata.Rewriting
import CilCodec.Proofs.Import.Thunk
import CilCodec.Proofs.Import.HintName
import CilCodec.Proofs.Metadata.TableHeader
import CilCodec.Proofs.Bytes.Accepting
import CilCodec.Proofs.Code.Stopping
import CilCodec.Proofs.Code.Representable
import CilCodec.Proofs.Code.Targets
import CilCodec.Proofs.Code.Distances
import CilCodec.Proofs.Code.Operations
import CilCodec.Proofs.Code.Lookup
import CilCodec.Proofs.Method.SectionLayout
import CilCodec.Proofs.Bytes.Locating
import CilCodec.Proofs.Method.Locating
import CilCodec.Proofs.Checked.Arithmetic
import CilCodec.Proofs.Checked.Bytes
import CilCodec.Proofs.Checked.Scripts
import CilCodec.Proofs.Checked.Replaying
import CilCodec.Proofs.Checked.Code
import CilCodec.Proofs.Checked.Method
import CilCodec.Proofs.Checked.Import
import CilCodec.Proofs.Checked.Metadata
import CilCodec.Proofs.Checked.Totality
import CilCodec.Proofs.Termination
import CilCodec.Proofs.Number.Shortest
import CilCodec.Proofs.Text.Quoted
