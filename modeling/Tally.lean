import Tally.Code.Listing
import Tally.Machine
import Tally.Program.Compilation
import Tally.Program.Grammar
import Tally.Program.Parsing
import Tally.Program.Text
import Tally.Program.Rules
import Tally.Text.Utf8
import Tally.Channel.Console
import Tally.CommandLine
import Tally.Code.Reader
import Tally.Code.Bench
import Tally.Code.Sheet
import Tally.Main
import Tally.Proofs.Assembly.Sketch
import Tally.Proofs.Code.Decoding
import Tally.Proofs.Assembly.Linking
import Tally.Proofs.Assembly.Layout
import Tally.Proofs.Assembly.Linked
import Tally.Proofs.Program.Emission
import Tally.Program.Meaning
import Tally.Proofs.Program.Approximation
import Tally.Proofs.Program.Declared
import Tally.Proofs.Code.Depth
import Tally.Proofs.Program.Kept
import Tally.Proofs.Program.Literals
import Tally.Proofs.Program.References
import Tally.Proofs.Program.Segments
import Tally.Proofs.Program.Compiled
import Tally.Proofs.Code.Listed
import Tally.Proofs.Program.WellFormed
import Tally.Proofs.Machine.Decode
import Tally.Proofs.Machine.Runs
import Tally.Proofs.Code.Sites
import Tally.Proofs.Machine.Activations
import Tally.Proofs.Machine.Discipline
import Tally.Proofs.Program.Planned
import Tally.Proofs.Machine.Marks
import Tally.Proofs.Program.Safety
import Tally.Proofs.Machine.Calls
import Tally.Proofs.Machine.Following
import Tally.Proofs.Program.Places
import Tally.Proofs.Program.Expressions
import Tally.Proofs.Program.Statements
import Tally.Proofs.Program.Preservation
import Tally.Proofs.Code.Encoding
import Tally.Proofs.Code.Operands
import Tally.Token.Segmentation
import Tally.Proofs.Token.Segmented
import Tally.Proofs.Grammar.Resolved
import Tally.Proofs.Grammar.Passing
import Tally.Proofs.Grammar.Sound
import Tally.Proofs.Grammar.Complete
import Tally.Proofs.Grammar.Exact
import Tally.Proofs.Grammar.Extents
import Tally.Proofs.Program.Registered
import Tally.Proofs.Program.Sizes
import Tally.Proofs.Program.Outcomes
import Tally.Assembly.Log
import Tally.Proofs.Assembly.Acts
import Tally.Proofs.Assembly.Passes
import Tally.Proofs.Channel.Words
import Tally.Channel.Decimal
import Tally.Proofs.Channel.Numerals
import Tally.Proofs.Channel.Decimals
import Tally.Proofs.Text.Utf8
import Tally.Proofs.Channel.Supply
import Tally.Proofs.Channel.Input
import Tally.Proofs.Channel.Cuts
import Tally.Program.Marks
import Tally.Proofs.Grammar.Recorded
import Tally.Proofs.Grammar.Lossless
import Tally.Program.Placeless
import Tally.Proofs.Program.Placement
import Tally.Program.Lawful
import Tally.Program.Levels
import Tally.Proofs.Grammar.Levelled
import Tally.Proofs.Program.Measures
import Tally.Proofs.Program.Checked
import Tally.Proofs.Machine.Isolation
import Tally.Proofs.Code.Cuts
import Tally.Proofs.Machine.CallChecks
import Tally.Proofs.Machine.Operands
import Tally.Proofs.Machine.Faults
import Tally.Proofs.Machine.Causes
import Tally.Proofs.Machine.Capacity
import Tally.Proofs.Machine.Arrivals
import Tally.Proofs.Program.CallSites
import Tally.Proofs.Program.DirectCalls
import Tally.Proofs.Token.Increasing
import Tally.Proofs.Grammar.Limits
import Tally.Proofs.Grammar.Straight
import Tally.Proofs.Grammar.Blame
import Tally.Proofs.Grammar.Earliest
import Tally.Proofs.Grammar.Orderly
import Tally.Proofs.Grammar.Progress
import Tally.Proofs.Grammar.Spelt
import Tally.Proofs.Token.Unique
import Tally.Proofs.Token.Written
import Tally.Proofs.Grammar.Printed
import Tally.Token.Answers
import Tally.Proofs.Token.Answers
import Tally.Token.Region
import Tally.Proofs.Token.Accounted
import Tally.Proofs.Grammar.Trailing
import Tally.Proofs.Code.Bench
import Tally.Proofs.Program.Phases
import Tally.Proofs.Program.Sums
import Tally.Proofs.Code.Reread
import Tally.Proofs.Program.Listing
import Tally.Proofs.Grammar.Joined
