import Worksheet.Main
import Worksheet.Session
import Worksheet.Proofs.Agreement
import Worksheet.Proofs.Keys
import Worksheet.Proofs.Reading
import Worksheet.Proofs.Observers
import Worksheet.Proofs.Repetition
import Worksheet.Proofs.Isolation
import Worksheet.Proofs.Protocol
import Worksheet.Proofs.Visit
import Worksheet.Proofs.Crew
import Worksheet.Proofs.Framing
import Worksheet.Proofs.Layout
import Worksheet.Proofs.Parents
import Worksheet.Proofs.Reads
import Worksheet.Proofs.Lookahead
import Worksheet.Proofs.Echo
import Worksheet.Proofs.Memo
import Worksheet.Proofs.Listing
import Worksheet.Proofs.Presentation
import Worksheet.Proofs.Truncation
