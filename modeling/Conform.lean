import Conform.Main
import Conform.Storage.Tree
import Conform.Proofs.Check.Conformance
import Conform.Proofs.Check.Congruence
import Conform.Proofs.Check.Reached
import Conform.Proofs.Schema.Chain
import Conform.Proofs.Schema.Inlined
import Conform.Proofs.Check.Inlining
import Conform.Proofs.Check.Relocation
import Conform.Proofs.Check.Genuine
import Conform.Proofs.Check.Layout
import Conform.Proofs.Check.Standard
import Conform.Proofs.Check.Places
import Conform.Proofs.Check.Exclusion
import Conform.Proofs.Check.Paths
import Conform.Proofs.Command.ErrorLines
import Conform.Proofs.Check.Narrowing
import Conform.Proofs.Check.Extension
import Conform.Proofs.Command.Verdict
import Conform.Proofs.Command.Agreement
import Conform.Proofs.Schema.Cycle
import Conform.Proofs.Check.Declared
import Conform.Proofs.Json.NumberValue
import Conform.Proofs.Config.Saved
import Conform.Proofs.Json.CompactText
import Conform.Proofs.Json.CanonicalForm
import Conform.Proofs.Check.Distinct
import Conform.Proofs.Config.Layers
import Conform.Proofs.Schema.Resolution
import Conform.Proofs.Command.Descriptor
