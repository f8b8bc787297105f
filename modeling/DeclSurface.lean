import DeclSurface.Main
import DeclSurface.Record.FlagSet
import DeclSurface.Rewrite.Session
import DeclSurface.Proofs.Composition.Isolation
import DeclSurface.Proofs.Composition.Layout
import DeclSurface.Proofs.Composition.Restriction
import DeclSurface.Proofs.Composition.Success
import DeclSurface.Proofs.Composition.Deduplication
import DeclSurface.Proofs.Composition.Acceptance
import DeclSurface.Proofs.Rewrite.Accounting
import DeclSurface.Proofs.Rewrite.Pairing
import DeclSurface.Proofs.Rewrite.Restoration
import DeclSurface.Proofs.Composition.Bracketing
import DeclSurface.Proofs.Composition.Cycle
import DeclSurface.Proofs.Surface.Scheduling
import DeclSurface.Proofs.Surface.Batch
import DeclSurface.Proofs.Gate.Reading
import DeclSurface.Proofs.Gate.Writing
import DeclSurface.Proofs.Gate.Flattening
import DeclSurface.Proofs.Gate.Rejection
import DeclSurface.Proofs.Rewrite.Likeness
import DeclSurface.Proofs.Composition.Influence
import DeclSurface.Proofs.Composition.Moment
import DeclSurface.Proofs.Explanation.Scopes
import DeclSurface.Proofs.Explanation.Agreement
import DeclSurface.Proofs.Explanation.Climbing
import DeclSurface.Proofs.Check.Merging
import DeclSurface.Proofs.Check.Verdict
import DeclSurface.Proofs.Check.Coverage
import DeclSurface.Proofs.Data.Printing
import DeclSurface.Proofs.Manifest.Encoding
import DeclSurface.Proofs.Record.RoundTrip
import DeclSurface.Proofs.Manifest.Rendering
import DeclSurface.Proofs.CompilerFlags.Quoting
import DeclSurface.Proofs.CompilerFlags.Spelling
import DeclSurface.Proofs.CompilerFlags.LastMention
import DeclSurface.Proofs.Composition.Reinstatement
import DeclSurface.Proofs.Composition.Registration
import DeclSurface.Proofs.Manifest.Interleaving
import DeclSurface.Proofs.Manifest.Lines
import DeclSurface.Proofs.FlagSet.Recipe
import DeclSurface.Proofs.Check.MacroHead
import DeclSurface.Proofs.Files.PathOrder
import DeclSurface.Proofs.Files.Spelling
import DeclSurface.Proofs.Library.Inclusion
import DeclSurface.Proofs.Settings.Layering
