import MarketEngine.Analysis.OrderFlow
import MarketEngine.Analysis.RankIc
import MarketEngine.Book.DropCopy
import MarketEngine.Book.FillOrKill
import MarketEngine.Book.LadderRuns
import MarketEngine.Book.MultiSymbol
import MarketEngine.Book.OrderTable
import MarketEngine.Book.ReplayModes
import MarketEngine.Book.ShareAccounts
import MarketEngine.Book.Snapshot
import MarketEngine.Book.Splitting
import MarketEngine.Book.Uncrossed
import MarketEngine.Csv.RoundTrip
import MarketEngine.Itch.CleanReport
import MarketEngine.Itch.Containment
import MarketEngine.Itch.DatagramFile
import MarketEngine.Itch.RoundTrip
import MarketEngine.Queue.Benchmarks
import MarketEngine.Queue.Replay
import MarketEngine.Reference.BookDifferential
import MarketEngine.Reference.MatcherDifferential
import MarketEngine.Research.FillTimes
import MarketEngine.Research.QueueExact
import MarketEngine.Research.QueueRejected
import MarketEngine.Research.QueueStudy
