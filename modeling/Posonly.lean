import Posonly.Main
import Posonly.Proofs.Archive.Faults
import Posonly.Proofs.CommandLine.Settings
import Posonly.Proofs.Conversion.Indentation
import Posonly.Proofs.Conversion.Mangling
import Posonly.Proofs.Conversion.Version
import Posonly.Proofs.Conversion.Wraps
import Posonly.Proofs.Edit.Pointwise
import Posonly.Proofs.Feature
import Posonly.Proofs.Options.Overriding
import Posonly.Proofs.Printer
import Posonly.Proofs.Program.DryRun
import Posonly.Proofs.Program.Fidelity
import Posonly.Proofs.Program.RoundTrip
import Posonly.Proofs.Program.Spellings
import Posonly.Proofs.Scope
import Posonly.Proofs.Signature.Removal
