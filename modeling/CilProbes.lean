import CilProbes.Session.Compile
import CilProbes.Session.Script
import CilProbes.Proofs.Reading.Exact
import CilProbes.Proofs.Reading.Instruction
import CilProbes.Proofs.Reading.Section
import CilProbes.Proofs.Outcome
import CilProbes.Proofs.Reading.Body
import CilProbes.Proofs.Writing.Code
import CilProbes.Proofs.Writing.Body
import CilProbes.Proofs.Method.Insert
import CilProbes.Proofs.Coverage.Flow
import CilProbes.Proofs.Method.Valid
import CilProbes.Proofs.Coverage.Blocks
import CilProbes.Proofs.Coverage.Extension
import CilProbes.Proofs.Coverage.Passes
import CilProbes.Proofs.Writing.Again
import CilProbes.Proofs.Coverage.Guard
import CilProbes.Proofs.Writing.Relax
import CilProbes.Proofs.Writing.Widths
import CilProbes.Proofs.Writing.Reach
import CilProbes.Proofs.Writing.Steps
import CilProbes.Proofs.Writing.Total
import CilProbes.Proofs.Method.Regions
import CilProbes.Proofs.Method.InPlace
import CilProbes.Proofs.Coverage.Regions
import CilProbes.Proofs.Session.Ends
import CilProbes.Proofs.Session.FailOpen
import CilProbes.Proofs.Coverage.Growth
import CilProbes.Proofs.Coverage.Safe
import CilProbes.Proofs.Writing.Canonical
import CilProbes.Proofs.Writing.Relocation
import CilProbes.Proofs.Session.OffsetMap
import CilProbes.Proofs.Session.Run
import CilProbes.Proofs.Session.Cap
import CilProbes.Proofs.Assembly.Registry
import CilProbes.Proofs.Session.Assemblies
import CilProbes.Proofs.Session.Nest
import CilProbes.Proofs.Session.Once
import CilProbes.Proofs.Reading.Safety
import CilProbes.Proofs.Coverage.Supply
import CilProbes.Proofs.Coverage.Depth
import CilProbes.Proofs.Coverage.Segments
import CilProbes.Proofs.Coverage.Tally
import CilProbes.Proofs.Writing.Chain
import CilProbes.Proofs.Session.Tokens
import CilProbes.Proofs.Bytes.Fields
