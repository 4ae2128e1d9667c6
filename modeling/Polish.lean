import Polish.Main
import Polish.Proofs.Cursor
import Polish.Proofs.Grammar
import Polish.Proofs.Grammar.Sound
import Polish.Proofs.Acceptance
import Polish.Proofs.Double.Decimal
import Polish.Proofs.Double.Text
import Polish.Proofs.Exactness
import Polish.Proofs.Grammar.Complete
import Polish.Proofs.Legible
import Polish.Proofs.Relabelling
import Polish.Proofs.Printing
import Polish.Proofs.Runs.Complete
import Polish.Proofs.Declarations
import Polish.Proofs.RoundTrip
import Polish.Proofs.Dependency
import Polish.Proofs.Linking
import Polish.Proofs.Grammar.Phrases
import Polish.Proofs.Identifiers.History
import Polish.Proofs.Capture
import Polish.Proofs.Rounds
import Polish.Proofs.Grammar.Detach
import Polish.Proofs.Inclusion
import Polish.Proofs.Overlay
import Polish.Proofs.Confinement
import Polish.Proofs.Emission.Template
import Polish.Proofs.Script
import Polish.Proofs.Emission.Statements
import Polish.Proofs.Erasure
import Polish.Proofs.Reprinting
import Polish.Proofs.Casts
import Polish.Proofs.Effects
import Polish.Proofs.Script.Reader
import Polish.Proofs.Emission.Unambiguous
import Polish.Proofs.Renaming
import Polish.Proofs.Placement
import Polish.Proofs.PrintOrder
import Polish.Proofs.Locations
import Polish.Proofs.Emission.Attempts
import Polish.Proofs.Queries
import Polish.Proofs.Groups
import Polish.Proofs.Orders
import Polish.Proofs.SourceOrder
import Polish.Proofs.Transparency
import Polish.Proofs.Double.Numerals
import Polish.Proofs.Lines
import Polish.Proofs.Coverage
