import Vitae.Json.Printer
import Vitae.Proofs.FreeRun
import Vitae.Proofs.Canonical
import Vitae.Proofs.NoInjection
import Vitae.Service.Answer
import Vitae.Template.Position
import Vitae.Template.Session
import Vitae.Proofs.SessionLaw
import Vitae.Proofs.TopLevel
import Vitae.Proofs.Concatenation
import Vitae.Proofs.IdleTags
import Vitae.Proofs.Unmentioned
import Vitae.Proofs.InPlace
import Vitae.Proofs.Aliases
import Vitae.Proofs.SectionSearch
import Vitae.Proofs.ScanCost
import Vitae.Proofs.Nesting
import Vitae.Proofs.Fragments
import Vitae.Proofs.DottedPaths
import Vitae.Proofs.SectionText
import Vitae.Proofs.Complement
import Vitae.Proofs.Amplification
import Vitae.Proofs.Moments
import Vitae.Proofs.FinishedMarkup
import Vitae.Proofs.Edits
import Vitae.Proofs.ListForms
import Vitae.Proofs.PopulatedSpellings
import Vitae.Proofs.Environment
import Vitae.Proofs.PlainText
import Vitae.Proofs.BodyScan
import Vitae.Proofs.WholeNumbers
