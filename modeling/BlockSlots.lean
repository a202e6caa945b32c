import BlockSlots.Describe
import BlockSlots.Proofs.Acceptance
import BlockSlots.Proofs.Account
import BlockSlots.Proofs.Acts
import BlockSlots.Proofs.Admission
import BlockSlots.Proofs.ArrayBounds
import BlockSlots.Proofs.ArrayText
import BlockSlots.Proofs.CellArrays
import BlockSlots.Proofs.Checked
import BlockSlots.Proofs.Composition
import BlockSlots.Proofs.Declarations
import BlockSlots.Proofs.Decoding
import BlockSlots.Proofs.DemandedTypes
import BlockSlots.Proofs.Embedding
import BlockSlots.Proofs.EncodedChars
import BlockSlots.Proofs.Equivariance
import BlockSlots.Proofs.FirstFault
import BlockSlots.Proofs.Grammar
import BlockSlots.Proofs.Harmless
import BlockSlots.Proofs.Hiding
import BlockSlots.Proofs.History
import BlockSlots.Proofs.Idempotence
import BlockSlots.Proofs.InRange
import BlockSlots.Proofs.Insertion
import BlockSlots.Proofs.Interleaving
import BlockSlots.Proofs.ItemLists
import BlockSlots.Proofs.Lifetimes
import BlockSlots.Proofs.LineEndings
import BlockSlots.Proofs.LineStructure
import BlockSlots.Proofs.Listing
import BlockSlots.Proofs.Malformed
import BlockSlots.Proofs.Mirroring
import BlockSlots.Proofs.Numbering
import BlockSlots.Proofs.OneTag
import BlockSlots.Proofs.Outline
import BlockSlots.Proofs.Payload
import BlockSlots.Proofs.Peaks
import BlockSlots.Proofs.Pieces
import BlockSlots.Proofs.PlainLines
import BlockSlots.Proofs.Records
import BlockSlots.Proofs.Releases
import BlockSlots.Proofs.Renaming
import BlockSlots.Proofs.Resolution
import BlockSlots.Proofs.Respelling
import BlockSlots.Proofs.Sharing
import BlockSlots.Proofs.Slots
import BlockSlots.Proofs.Step
import BlockSlots.Proofs.Stores
import BlockSlots.Proofs.Substitution
import BlockSlots.Proofs.Successive
import BlockSlots.Proofs.Suspended
import BlockSlots.Proofs.Tilings
import BlockSlots.Proofs.Tracks
import BlockSlots.Proofs.Usage
