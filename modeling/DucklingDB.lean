import DucklingDB.Raft.Acknowledge
import DucklingDB.Kv.Runner
import DucklingDB.Kv.LostUpdate
import DucklingDB.Kv.Attempts
import DucklingDB.Kv.Serializability
import DucklingDB.Kv.Alone
import DucklingDB.Mvcc.GarbageCollect
import DucklingDB.Mvcc.Inline
import DucklingDB.Mvcc.Uncertainty
import DucklingDB.Raft.ListLog
import DucklingDB.Lsm.Observation
import DucklingDB.Gossip.Restart
import DucklingDB.Sql.Update
import DucklingDB.Raft.Stale
import DucklingDB.Raft.LeadId
import DucklingDB.Raft.Backtrack
import DucklingDB.KvServer.PersistFirst
import DucklingDB.Sql.Listing
import DucklingDB.Raft.CrashSafety
import DucklingDB.KvServer.BadSnapshot
import DucklingDB.KvServer.Truncate
import DucklingDB.Raft.CommitRule
import DucklingDB.Lsm.Cascade
import DucklingDB.Lsm.FileNumbers
import DucklingDB.Lsm.FailedReads
