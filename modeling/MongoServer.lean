import MongoServer.KeyString.RoundTrip
import MongoServer.Storage.UniqueIndexContents
import MongoServer.Storage.IndexEntryComparison
import MongoServer.Repl.CommittedSnapshot
import MongoServer.Sharding.BatchWriteSafety
import MongoServer.Sharding.ChunkPartition
import MongoServer.Sharding.ChunkLookup
import MongoServer.Query.BoundsScan
import MongoServer.Query.IndexBoundsBuilder
import MongoServer.Repl.ElectedData
import MongoServer.Repl.ParallelApply
import MongoServer.Sharding.ReceivingChunks
import MongoServer.Index.Coverage
import MongoServer.Index.KeysAndMatching
import MongoServer.Matcher.SubsetSoundness
import MongoServer.Matcher.SpliceableQueries
import MongoServer.Repl.RollBackLocalOperations
import MongoServer.Update.SafeNum
import MongoServer.Views.ViewRuns
import MongoServer.Auth.EffectivePrivileges
import MongoServer.Sharding.MergedResults
import MongoServer.Query.CachedEligibility
import MongoServer.Storage.OplogVisibility
import MongoServer.Sharding.MigrationDestination
import MongoServer.Sharding.DistLockExpiration
import MongoServer.Pipeline.MatchDependencies
import MongoServer.Pipeline.SkipLimit
