import SearchEngine.Lib.Text
import SearchEngine.Lib.Numeral
import SearchEngine.Lib.Effect
import SearchEngine.Stores
import SearchEngine.Porter
import SearchEngine.StopWords
import SearchEngine.Crawler
import SearchEngine.DocumentIndexer
import SearchEngine.ForwardIndexer
import SearchEngine.InvertedIndexer
import SearchEngine.ParentChildIndexer
import SearchEngine.CosSim
import SearchEngine.Run
import SearchEngine.IdAssignment
import SearchEngine.Lib.Postings
import SearchEngine.Accumulation
import SearchEngine.PostingInvariant
import SearchEngine.PostingLoop
import SearchEngine.Reindexing
import SearchEngine.FreshBuild
import SearchEngine.QueryResolution
import SearchEngine.Rerun
import SearchEngine.Lib.Records
import SearchEngine.ForwardRecord
import SearchEngine.LinkIndexes
import SearchEngine.Lib.Loop
import SearchEngine.PageRankIndexer
import SearchEngine.Convergence
import SearchEngine.Lib.LinkFlow
import SearchEngine.LinkGraph
import SearchEngine.RankMass
import SearchEngine.Crawl
import SearchEngine.Pipeline
import SearchEngine.Repair
import SearchEngine.ForwardInverted
import SearchEngine.ValueRewrite
import SearchEngine.PartialParse
import SearchEngine.Stemming
import SearchEngine.Batching
import SearchEngine.Cleaning
import SearchEngine.CrawlResult
import SearchEngine.Lib.Counting
import SearchEngine.Denominator
import SearchEngine.Lib.InPlace
import SearchEngine.UnlinkedPages
import SearchEngine.CharAccess
import SearchEngine.Lib.Contraction
import SearchEngine.WebGraph
import SearchEngine.RankLimit
import SearchEngine.Lib.Settling
import SearchEngine.RankTermination
import SearchEngine.Search
import SearchEngine.Writes
import SearchEngine.Provenance
import SearchEngine.BreadthFirst
import SearchEngine.Extraction
import SearchEngine.Lib.Waves
import SearchEngine.StemRules
import SearchEngine.Retention
import SearchEngine.Vocabulary
import SearchEngine.LatestRecord
import SearchEngine.PageHistory
import SearchEngine.SearchHistory
