import PenScript.CommandLine.Folder
import PenScript.Canvas.Paint
import PenScript.Main
import PenScript.Proofs.Passes
import PenScript.Proofs.Portability
import PenScript.Proofs.Rejection
import PenScript.Proofs.Delimiters
import PenScript.Proofs.Shifts
import PenScript.Proofs.Locality
import PenScript.Proofs.Interruption
import PenScript.Proofs.Joins
import PenScript.Proofs.Accounting
import PenScript.Proofs.Codes
import PenScript.Proofs.Histories
import PenScript.Proofs.Limits
import PenScript.Proofs.Decoding
import PenScript.Proofs.Repairs
import PenScript.Proofs.Stores
import PenScript.Proofs.Stamps
import PenScript.Proofs.Diagnoses
import PenScript.Proofs.Deletions
import PenScript.Proofs.Transcripts
import PenScript.Proofs.Draws
import PenScript.Proofs.Endings
import PenScript.Proofs.Literals
import PenScript.Proofs.Boundaries
import PenScript.Proofs.Slices
import PenScript.Proofs.Summaries
import PenScript.Proofs.Arguments
import PenScript.Proofs.Reports
import PenScript.Proofs.Fallbacks
import PenScript.Proofs.Numerals
import PenScript.Proofs.Descriptions
import PenScript.Proofs.Trims
import PenScript.Proofs.Lists
import PenScript.Proofs.Spacing
import PenScript.Proofs.Names
import PenScript.Proofs.Words
import PenScript.Proofs.Sides
import PenScript.Proofs.Mismatches
import PenScript.Proofs.Margins
import PenScript.Proofs.Continuations
import PenScript.Proofs.Pictures
import PenScript.Proofs.Shares
import PenScript.Proofs.Arches
import PenScript.Proofs.Extents
import PenScript.Proofs.Positions
