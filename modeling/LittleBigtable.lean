import LittleBigtable.Bttest.ChangeReplay
import LittleBigtable.Bttest.AdminEffects
import LittleBigtable.Bttest.Paging
import LittleBigtable.Bttest.QueryResume
import LittleBigtable.Bttest.ChangeDelivery
import LittleBigtable.Bttest.ViewStorage
import LittleBigtable.Bttest.ViewFreshness
import LittleBigtable.Bttest.ViewIsolation
import LittleBigtable.Bttest.FailureAtomicity
import LittleBigtable.Bttest.BatchSequence
import LittleBigtable.Bttest.Counters
import LittleBigtable.Bttest.ChunkCodec
import LittleBigtable.Bttest.LifecycleFailure
import LittleBigtable.Bttest.Lifecycle
import LittleBigtable.Bttest.TokenIncarnation
import LittleBigtable.Bttest.IamPolicies
import LittleBigtable.Bttest.LogicalViews
import LittleBigtable.Bttest.ChildParents
import LittleBigtable.Bttest.GcLaws
import LittleBigtable.Bttest.AggregateOrder
import LittleBigtable.Gsql.DelimitedKeys
import LittleBigtable.Gsql.OrderedKeys
import LittleBigtable.Bttest.ReadPaths
import LittleBigtable.Bttest.BackupImmutable
import LittleBigtable.Gsql.LikeMatch
import LittleBigtable.Gsql.HllCanonical
import LittleBigtable.Gsql.HllBounds
import LittleBigtable.Gsql.GroupRewriting
import LittleBigtable.Gsql.Unpack
import LittleBigtable.Gsql.ViewErrors
import LittleBigtable.Bttest.LogIncarnation
import LittleBigtable.Gsql.CivilTime
import LittleBigtable.Gsql.CheckedArithmetic
