import Stok.App.Stokd
import Stok.App.StokdDelivers
import Stok.App.StokdStops
import Stok.Core.FlatMapRefine
import Stok.Core.Histogram
import Stok.Core.MpscQueue
import Stok.Core.SeqLock
import Stok.Core.SpscChannel
import Stok.Core.SpscQueue
import Stok.Core.Waker
import Stok.Engine.CleanFilings
import Stok.Engine.DateChecks
import Stok.Engine.Emission
import Stok.Engine.Engine
import Stok.Engine.Halts
import Stok.Engine.Outcomes
import Stok.Engine.Paper
import Stok.Engine.PaperBooks
import Stok.Engine.PaperRisk
import Stok.Engine.QuotesSeen
import Stok.Engine.Records
import Stok.Engine.Score
import Stok.Engine.ScoreFormula
import Stok.Engine.ScoreText
import Stok.Engine.ScorerMatch
import Stok.Engine.WatchTable
import Stok.Feeds.ExhibitJobs
import Stok.Feeds.Exhibits
import Stok.Feeds.HostRate
import Stok.Feeds.LaneRuns
import Stok.Feeds.Lanes
import Stok.Feeds.ParsersUtf8
import Stok.Feeds.Poller
import Stok.Feeds.Tickers
import Stok.Feeds.TickersFound
import Stok.Feeds.XmlItems
import Stok.Lib.BinarySearch
import Stok.Lib.Channel
import Stok.Lib.Fairness
import Stok.Lib.FirstMatch
import Stok.Lib.FuelLoop
import Stok.Lib.LinearProbing
import Stok.Lib.LogLinear
import Stok.Lib.OrderedMap
import Stok.Lib.Pacing
import Stok.Lib.Ranks
import Stok.Lib.RollingWindow
import Stok.Lib.SelfSync
import Stok.Lib.Sorting
import Stok.Market.Baseline
import Stok.Market.BaselineRuns
import Stok.Market.BaselineText
import Stok.Market.BoardTape
import Stok.Market.BridgeTape
import Stok.Market.ItchBook
import Stok.Market.ItchBookRefine
import Stok.Market.ItchBuffer
import Stok.Market.ItchEncode
import Stok.Market.MoldDelivery
import Stok.Market.MoldRecovery
import Stok.Market.QuoteFilter
import Stok.Market.RecordReplay
import Stok.Market.SideLadder
import Stok.Net.Connection
import Stok.Net.HttpFraming
import Stok.Net.HttpInterim
import Stok.Net.HttpResume
import Stok.Net.Url
import Stok.Ref.FilingsAlgebra
import Stok.Ref.Master
import Stok.Ref.MasterIndex
import Stok.Ref.NameIndex
import Stok.Research.Backtest
import Stok.Research.BacktestRounds
import Stok.Research.IdleSkip
import Stok.Research.NewsRoundTrip
import Stok.Research.NoLookAhead
import Stok.Research.QuoteFilterDay
import Stok.Research.Report
import Stok.Research.ReportAgrees
import Stok.Research.StoriesReplayed
import Stok.Research.TitleKey
import Stok.Sink.AlertRuns
import Stok.Sink.AlertText
import Stok.Sink.Alerts
import Stok.Sink.JournalLines
import Stok.Util.CivilDates
import Stok.Util.DateParse
import Stok.Util.DateRange
import Stok.Util.DateText
import Stok.Util.Eastern
import Stok.Util.HtmlBounds
import Stok.Util.HtmlUtf8
import Stok.Util.JsonDoc
import Stok.Util.JsonNodes
import Stok.Util.JsonValues
import Stok.Util.Utf8
