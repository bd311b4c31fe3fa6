import ProtoOs.Lib.Cpu
import ProtoOs.Proofs.Queue
import ProtoOs.Proofs.Screen
import ProtoOs.Proofs.Accesses
import ProtoOs.Ref.Main
import ProtoOs.Proofs.Locks
import ProtoOs.Lib.Spec
import ProtoOs.Proofs.Console
import ProtoOs.Proofs.Search
import ProtoOs.Proofs.Serving
import ProtoOs.Proofs.Idle
import ProtoOs.Proofs.Batching
import ProtoOs.Lib.Fatal
import ProtoOs.Proofs.Fatal
import ProtoOs.Proofs.Line
import ProtoOs.Lib.Editor
import ProtoOs.Proofs.Session
import ProtoOs.Proofs.Commands
import ProtoOs.Proofs.Repeat
import ProtoOs.Proofs.Echo
import ProtoOs.Proofs.Backspace
import ProtoOs.Proofs.Frames
import ProtoOs.Lib.Paths
import ProtoOs.Proofs.Mapping
import ProtoOs.Lib.Mealy
import ProtoOs.Proofs.Keyboard
import ProtoOs.Proofs.Shift
import ProtoOs.Lib.Frame
import ProtoOs.Proofs.Typing
import ProtoOs.Proofs.Strokes
import ProtoOs.Lib.Follow
import ProtoOs.Lib.Once
import ProtoOs.Proofs.Report
import ProtoOs.Lib.Mirror
import ProtoOs.Proofs.Ideal
import ProtoOs.Lib.Ahead
import ProtoOs.Proofs.Answers
import ProtoOs.Proofs.Foretold
import ProtoOs.Proofs.Settle
import ProtoOs.Proofs.Raises
import ProtoOs.Proofs.Account
import ProtoOs.Lib.Duty
import ProtoOs.Proofs.Handlers
import ProtoOs.Proofs.Script
import ProtoOs.Lib.Undisturbed
import ProtoOs.Proofs.Complete
import ProtoOs.Proofs.PowerOn
import ProtoOs.Lib.Standing
import ProtoOs.Proofs.Standing
