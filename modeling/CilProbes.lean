import CilProbes.Coverage.Run
import CilProbes.Module.Same
import CilProbes.Proofs.Code.Canonical
import CilProbes.Proofs.Body.Building
import CilProbes.Proofs.Probe.Transparency
import CilProbes.Proofs.Module.NormalForm
import CilProbes.Proofs.Coverage.Difference
import CilProbes.Proofs.Coverage.Runs
import CilProbes.Proofs.Coverage.Selection
import CilProbes.Proofs.Symbols.NormalForm
import CilProbes.Proofs.Coverage.Reruns
import CilProbes.Proofs.Coverage.Pairing
import CilProbes.Proofs.Module.Nesting
import CilProbes.Proofs.Machine.Loading
import CilProbes.Proofs.Module.Delimited
import CilProbes.Proofs.Module.Initializer
import CilProbes.Proofs.Probe.Order
import CilProbes.Proofs.Body.Truncation
import CilProbes.Proofs.Probe.Labels
import CilProbes.Proofs.Coverage.Hidden
import CilProbes.Proofs.Source.Spans
import CilProbes.Proofs.Module.Reattaching
import CilProbes.Proofs.Coverage.Stack
import CilProbes.Proofs.Bytes.Writing
import CilProbes.Proofs.Code.Handles
