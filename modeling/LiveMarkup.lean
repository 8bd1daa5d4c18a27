import LiveMarkup.Script.Describe
import LiveMarkup.Script.Requests
import LiveMarkup.Script.Lifetime
import LiveMarkup.Proofs.Upkeep
import LiveMarkup.Proofs.GlitchFreedom
import LiveMarkup.Proofs.ListHydration
import LiveMarkup.Proofs.Subtrees
import LiveMarkup.Proofs.Moves
import LiveMarkup.Proofs.Building
import LiveMarkup.Proofs.Sequencing
import LiveMarkup.Proofs.Reruns
import LiveMarkup.Proofs.PartingWrites
import LiveMarkup.Proofs.SpreadValues
import LiveMarkup.Proofs.FragmentReading
import LiveMarkup.Proofs.Displacement
import LiveMarkup.Proofs.LiveElements
import LiveMarkup.Proofs.FoldedAttributes
import LiveMarkup.Proofs.Classification
import LiveMarkup.Proofs.LiteralText
import LiveMarkup.Proofs.ComponentProps
import LiveMarkup.Proofs.EventOrder
import LiveMarkup.Proofs.HeaderPlaces
import LiveMarkup.Proofs.TreeWalks
import LiveMarkup.Proofs.MarkerMatching
import LiveMarkup.Proofs.EscapedText
import LiveMarkup.Proofs.StyleMaps
import LiveMarkup.Proofs.StructuralEquality
import LiveMarkup.Proofs.CardSources
