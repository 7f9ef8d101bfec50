import GameNet.Artifact
import GameNet.Listing.Samples
import GameNet.Network.Dot
import GameNet.Proofs.Variants.History
import GameNet.Proofs.Simplify.Edges
import GameNet.Proofs.Listing.RoundTrip
import GameNet.Proofs.Layout.Tables
import GameNet.Proofs.Compile.Play
import GameNet.Proofs.Eval.Agreement
import GameNet.Proofs.Play.Validation
import GameNet.Proofs.Simplify.Normal
import GameNet.Proofs.Compile.Capping
import GameNet.Proofs.Compile.Cycles
import GameNet.Proofs.Layout.Renumbering
import GameNet.Proofs.Compile.Endings
import GameNet.Proofs.Compile.Opening
import GameNet.Proofs.Layout.Canonical
import GameNet.Proofs.Control.Controls
import GameNet.Proofs.Control.Groups
import GameNet.Proofs.Arena
import GameNet.Proofs.BaseState
import GameNet.Proofs.Term.Reading
