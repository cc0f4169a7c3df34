import Brainfuck.Session
import Brainfuck.Main
import Brainfuck.JumpTable.Search
import Brainfuck.Dialect.Scan
import Brainfuck.Optimize.Counter
import Brainfuck.Proofs.Steps
import Brainfuck.Proofs.Block
import Brainfuck.Proofs.Evaluation
import Brainfuck.Proofs.Flattening
import Brainfuck.Proofs.Improvement
import Brainfuck.Proofs.ClearLoops
import Brainfuck.Proofs.Movement
import Brainfuck.Proofs.Batching
import Brainfuck.Proofs.Optimization
import Brainfuck.Proofs.Balance
import Brainfuck.Proofs.Matching
import Brainfuck.Proofs.Safety
import Brainfuck.Proofs.DeadLoops
import Brainfuck.Proofs.Reading
import Brainfuck.Proofs.MaximalMunch
import Brainfuck.Proofs.Translation
import Brainfuck.Proofs.Layout
import Brainfuck.Proofs.Equivalence
import Brainfuck.Proofs.NormalForm
import Brainfuck.Proofs.Rendering
import Brainfuck.Proofs.Shortest
import Brainfuck.Proofs.LoopErrors
import Brainfuck.Proofs.Lockstep
import Brainfuck.Proofs.Extension
import Brainfuck.Proofs.Cancellation
import Brainfuck.Proofs.Related
import Brainfuck.Proofs.Narrowing
import Brainfuck.Proofs.Rotation
import Brainfuck.Proofs.PlainInput
import Brainfuck.Proofs.BoundedOutput
import Brainfuck.Proofs.Concatenation
import Brainfuck.Proofs.Sequence
import Brainfuck.Proofs.Endings
import Brainfuck.Proofs.Log
import Brainfuck.Proofs.Asking
import Brainfuck.Proofs.Families
import Brainfuck.Proofs.ConvertedFiles
