import CMarmotta.Model.X64
import CMarmotta.Model.Operators
import CMarmotta.Model.Classes
import CMarmotta.Model.Values
import CMarmotta.Model.Proofs.OperatorsProofs
import CMarmotta.Model.Proofs.ClassesProofs
import CMarmotta.Model.Proofs.ValuesProofs
import CMarmotta.Lib.IStream
import CMarmotta.Lib.Separated
import CMarmotta.Lib.Refinement
import CMarmotta.Lib.Mixing
import CMarmotta.Lib.NestedLoops
import CMarmotta.Lib.Proofs.KeyValueProofs
import CMarmotta.Lib.Proofs.LexOrderProofs
import CMarmotta.Lib.Proofs.ThreadsProofs
import CMarmotta.Lib.Proofs.CoverageProofs
import CMarmotta.Lib.Proofs.IStreamProofs
import CMarmotta.Util.Split
import CMarmotta.Util.Proofs.SplitProofs
import CMarmotta.Util.Proofs.Murmur3Proofs
import CMarmotta.Persistence.Key
import CMarmotta.Persistence.Proofs.KeyOrderProofs
import CMarmotta.Persistence.LevelDB
import CMarmotta.Persistence.Proofs.KeyProofs
import CMarmotta.Persistence.Proofs.StoreProofs
import CMarmotta.Persistence.Proofs.QueryProofs
import CMarmotta.Persistence.Proofs.RangeProofs
import CMarmotta.Persistence.Proofs.UpdateProofs
import CMarmotta.Persistence.Proofs.InOrderProofs
import CMarmotta.Persistence.Proofs.NamespaceProofs
import CMarmotta.Persistence.Proofs.NsQueryProofs
import CMarmotta.Persistence.Proofs.RemovalStatisticsProofs
import CMarmotta.Persistence.Proofs.ConcurrentProofs
import CMarmotta.Persistence.Proofs.NsConcurrentProofs
import CMarmotta.Persistence.Proofs.CrashProofs
import CMarmotta.Persistence.Proofs.HashProofs
import CMarmotta.Persistence.Proofs.MatchesProofs
import CMarmotta.Persistence.Proofs.IsolationProofs
import CMarmotta.Persistence.Proofs.RecoveryProofs
import CMarmotta.Service.Proofs.LevelDBServiceProofs
import CMarmotta.Service.Proofs.GraphsProofs
import CMarmotta.Service.Dataset
import CMarmotta.Service.Proofs.DatasetProofs
import CMarmotta.Sharding.Faults
import CMarmotta.Sharding.Concurrent
import CMarmotta.Sharding.Server
import CMarmotta.Sharding.Proofs.ShardingProofs
import CMarmotta.Sharding.Proofs.StatisticsProofs
import CMarmotta.Sharding.Proofs.FaultsProofs
import CMarmotta.Sharding.Proofs.ReplicasProofs
import CMarmotta.Sharding.Proofs.GetContextsProofs
import CMarmotta.Sharding.Proofs.ServerProofs
import CMarmotta.Sharding.Proofs.ShardedDatasetProofs
import CMarmotta.Sharding.Proofs.PlacementProofs
import CMarmotta.Sharding.Proofs.SerialProofs
import CMarmotta.Sharding.Proofs.RetryProofs
import CMarmotta.Sharding.Proofs.RearrangedProofs
import CMarmotta.Client.Values
import CMarmotta.Client.Connection
import CMarmotta.Client.Callbacks
import CMarmotta.Client.Contexts
import CMarmotta.Client.Terms
import CMarmotta.Client.ResponseStream
import CMarmotta.Client.Proofs.ConnectionProofs
import CMarmotta.Client.Proofs.StreamProofs
import CMarmotta.Client.Proofs.PrefixProofs
import CMarmotta.Client.Proofs.CallbacksProofs
import CMarmotta.Client.Proofs.ContextsProofs
import CMarmotta.Client.Proofs.TermsProofs
import CMarmotta.Client.Proofs.EqualityProofs
import CMarmotta.Client.Proofs.ResponseStreamProofs
import CMarmotta.Client.Transactions
import CMarmotta.Client.Proofs.TransactionsProofs
import CMarmotta.Parser.RdfParser
import CMarmotta.Parser.Quads
import CMarmotta.Parser.Chunks
import CMarmotta.Parser.Proofs.RdfParserProofs
import CMarmotta.Parser.Proofs.ChunksProofs
import CMarmotta.Serializer.SerializerRaptor
import CMarmotta.Serializer.Proofs.SerializerRaptorProofs
import CMarmotta.Serializer.SerializerProto
import CMarmotta.Serializer.Proofs.SerializerProtoProofs
import CMarmotta.Sparql.RasqalModel
import CMarmotta.Sparql.RasqalAdapter
import CMarmotta.Sparql.LevelDBSparql
import CMarmotta.Sparql.Proofs.RasqalModelProofs
import CMarmotta.Sparql.Proofs.PatternProofs
import CMarmotta.Sparql.Proofs.RasqalAdapterProofs
import CMarmotta.Sparql.Proofs.TupleQueryProofs
import CMarmotta.Sparql.Proofs.LevelDBSparqlProofs
import CMarmotta.Sparql.GraphPattern
import CMarmotta.Sparql.Proofs.GraphPatternProofs
import CMarmotta.Service.LevelDBSparqlService
import CMarmotta.Service.Proofs.LevelDBSparqlServiceProofs
import CMarmotta.CommandLine.Client
import CMarmotta.CommandLine.ClientSpec
import CMarmotta.CommandLine.Proofs.ClientProofs
