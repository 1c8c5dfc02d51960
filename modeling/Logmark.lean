import Logmark.Main
import Logmark.Files.Tree
import Logmark.Proofs.Cutting
import Logmark.Proofs.Trimming
import Logmark.Proofs.Fields
import Logmark.Proofs.Grammar
import Logmark.Proofs.Decoding
import Logmark.Proofs.LineRemoval
import Logmark.Proofs.Listing
import Logmark.Proofs.RepeatedRemoval
import Logmark.Proofs.Inserting
import Logmark.Proofs.Planning
import Logmark.Proofs.Session
import Logmark.Proofs.Places
import Logmark.Proofs.LineEndings
import Logmark.Proofs.JsonRoundTrip
import Logmark.Proofs.Worlds
import Logmark.Proofs.SettingsFile
import Logmark.Files.Machine
import Logmark.Proofs.Asking
import Logmark.Proofs.Effects
import Logmark.Proofs.PrintedReports
import Logmark.Proofs.Options
import Logmark.Proofs.CommandLines
import Logmark.Proofs.Previews
import Logmark.Proofs.InsertedLines
import Logmark.Proofs.StatementPlace
import Logmark.Proofs.ByteOffsets
import Logmark.Proofs.TextExtraction
import Logmark.Proofs.PositionOfOffset
import Logmark.Proofs.Addresses
import Logmark.Proofs.GivenTargets
import Logmark.Proofs.OutlineInfluence
import Logmark.Proofs.JsonGrammar
import Logmark.Proofs.JsonTokens
import Logmark.Proofs.JsonSkipping
import Logmark.Proofs.JsonRecords
import Logmark.Proofs.OutlineReading
import Logmark.Proofs.ReadingDepth
import Logmark.Proofs.FileLabels
import Logmark.Proofs.AbsolutePaths
import Logmark.Proofs.ClosingUp
import Logmark.Proofs.WorkspaceLabels
import Logmark.Proofs.NormalForms
