import JvmLift.Proofs.Block.Spills
import JvmLift.Proofs.ClassFile.Body
import JvmLift.Proofs.ClassFile.Pool
import JvmLift.Proofs.Flow.LoopForest
import JvmLift.Proofs.Flow.Partition
import JvmLift.Proofs.Hierarchy.Ancestry
import JvmLift.Proofs.Meaning.Method
import JvmLift.Proofs.Meaning.StraightLine
import JvmLift.Proofs.Protection.Accounting
import JvmLift.Proofs.Protection.Boundaries
import JvmLift.Proofs.Sugar.Booleans
import JvmLift.Proofs.Sugar.Declared
import JvmLift.Proofs.Sugar.Elements
import JvmLift.Proofs.Sugar.Erasure
import JvmLift.Proofs.Sugar.Scope
import JvmLift.Proofs.Sugar.Strings
import JvmLift.Proofs.Text.ModifiedUtf8
import JvmLift.Proofs.Tree.Substitution
import JvmLift.Proofs.Type.Erased
import JvmLift.Proofs.Unit.Forward
import JvmLift.Proofs.Unit.Isolation
import JvmLift.Proofs.Unit.Nesting
import JvmLift.Proofs.Unit.Slots
import JvmLift.Proofs.Walk.Places
import JvmLift.Proofs.Walk.Termination
import JvmLift.Proofs.Protection.Disjoint
import JvmLift.Proofs.Tree.Visits
