import TargetView.Host.Scripted
import TargetView.Main
import TargetView.Proofs.Lockstep
import TargetView.Proofs.Noninterference
import TargetView.Proofs.CacheHistory
import TargetView.Proofs.Printing
import TargetView.Target.Simulated
import TargetView.Statement.Linked
import TargetView.View
import TargetView.Proofs.Linking
import TargetView.Proofs.Execution
import TargetView.Proofs.Recording
import TargetView.Proofs.Snapshot
import TargetView.Proofs.Breakpoints
import TargetView.Proofs.Reordering
import TargetView.Proofs.Conduct
import TargetView.Proofs.Heap
import TargetView.Proofs.Sessions
import TargetView.Proofs.Aborts
import TargetView.Proofs.Passes
import TargetView.Proofs.Layout
import TargetView.Proofs.Stretches
import TargetView.Proofs.Scanning
import TargetView.Proofs.Tables
import TargetView.Proofs.Grafting
import TargetView.Proofs.TreeShape
import TargetView.Proofs.LinkedShape
import TargetView.Proofs.Outline
import TargetView.Proofs.Lossless
import TargetView.Proofs.Origins
import TargetView.Proofs.FreeNames
import TargetView.Proofs.Bytes
import TargetView.Proofs.Exactness
import TargetView.Proofs.Labels
import TargetView.Proofs.Numerals
import TargetView.Proofs.WordValues
import TargetView.Proofs.Expansions
import TargetView.Proofs.ReadLimits
import TargetView.Proofs.Vivification
import TargetView.Proofs.FailedAssignments
import TargetView.Proofs.StoreLaws
import TargetView.Proofs.UnknownNames
import TargetView.Proofs.Targets
import TargetView.Proofs.Places
import TargetView.Proofs.Segmentation
import TargetView.Proofs.Shifting
import TargetView.Proofs.Spans
import TargetView.Proofs.IntegerLiterals
import TargetView.Proofs.Escaping
import TargetView.Proofs.WordArithmetic
import TargetView.Proofs.Comparisons
import TargetView.Proofs.Elements
import TargetView.Proofs.LinkedLists
import TargetView.Proofs.Rounds
import TargetView.Proofs.Watching
import TargetView.Proofs.Attempts
import TargetView.Proofs.DoneReads
import TargetView.Proofs.Descent
import TargetView.Proofs.Insertion
import TargetView.Proofs.Attachment
import TargetView.Proofs.Drift
import TargetView.Proofs.ListElements
import TargetView.Proofs.NamedArrays
import TargetView.Proofs.ListArrays
import TargetView.Proofs.Forest
import TargetView.Proofs.Capacity
import TargetView.Proofs.Respacing
