import PegMachine.Machine.Run
import PegMachine.Pattern.Render
import PegMachine.Program.Listing
import PegMachine.Proofs.Blocks.Captures
import PegMachine.Proofs.Blocks.Linking
import PegMachine.Proofs.Blocks.Repetitions
import PegMachine.Proofs.Captures.Evaluated
import PegMachine.Proofs.Grammars.LeftRecursion
import PegMachine.Proofs.Programs.Acceptance
import PegMachine.Proofs.Programs.BackReferences
import PegMachine.Proofs.Programs.Bracketed
import PegMachine.Proofs.Programs.Charsets
import PegMachine.Proofs.Programs.Closed
import PegMachine.Proofs.Programs.Consuming
import PegMachine.Proofs.Programs.Cursor
import PegMachine.Proofs.Programs.Discipline
import PegMachine.Proofs.Programs.Groups
import PegMachine.Proofs.Programs.Limits
import PegMachine.Proofs.Programs.MatchTime
import PegMachine.Proofs.Programs.Meaning
import PegMachine.Proofs.Programs.Passes
import PegMachine.Proofs.Programs.PendingChoices
import PegMachine.Proofs.Programs.Plain
import PegMachine.Proofs.Programs.Reentry
import PegMachine.Proofs.Programs.Reordered
import PegMachine.Proofs.Programs.Resolved
import PegMachine.Proofs.Programs.Skips
import PegMachine.Proofs.Programs.Substitutions
import PegMachine.Proofs.Programs.TailCalls
import PegMachine.Proofs.Programs.Templates
import PegMachine.Proofs.Programs.Translated
import PegMachine.Proofs.Semantics.Derives
import PegMachine.Proofs.Text.ByteSets
