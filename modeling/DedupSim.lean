import DedupSim.Proof.Rabin
import DedupSim.Proof.Chunking
import DedupSim.Proof.ReadLoop
import DedupSim.Proof.Silent
import DedupSim.Proof.FileIds
import DedupSim.Proof.SegmentLocal
import DedupSim.Proof.Simulator
import DedupSim.Proof.Merge
import DedupSim.Proof.CdsLruCache
import DedupSim.Proof.LruCache
import DedupSim.Proof.CdsLru
import DedupSim.Proof.CacheInclusion
import DedupSim.Proof.SimLru
import DedupSim.Proof.SegmentCode
import DedupSim.Proof.ExtremeBinning
import DedupSim.Proof.BinDedup
import DedupSim.Proof.CdsAgree
import DedupSim.Proof.LogPartition
import DedupSim.Proof.CdsRank
import DedupSim.Proof.BinStats
import DedupSim.Proof.Count
import DedupSim.Proof.LoserTree
import DedupSim.Proof.LoadBlock
import DedupSim.Proof.Analysis
import DedupSim.Proof.Eviction
import DedupSim.Proof.MinHash
import DedupSim.Proof.Shards
import DedupSim.Proof.HitAnalysis
import DedupSim.Proof.ScannerStats
import DedupSim.Proof.DataStream
import DedupSim.Proof.RabinAsm
import DedupSim.Proof.Sort
import DedupSim.Proof.Restore
import DedupSim.Proof.Backups
import DedupSim.Proof.CdsChoice
import DedupSim.Proof.BinCost
import DedupSim.Proof.ChangedRegions
import DedupSim.Proof.CdsHits
import DedupSim.Proof.RawSegments
