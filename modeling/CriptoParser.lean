import CriptoParser.AwaitProgram
import CriptoParser.BinaryRounding
import CriptoParser.AwaitTasks
import CriptoParser.AwaitRules
import CriptoParser.AwaitParts
import CriptoParser.ConsumerGroup
import CriptoParser.ExpiringKeys
import CriptoParser.PythonValues
import CriptoParser.GreedyFill
import CriptoParser.ServiceWorld
import CriptoParser.ServiceLoop
import CriptoParser.ServiceRuns
import CriptoParser.SharedConfig
import CriptoParser.SharedDepth
import CriptoParser.SharedModels
import CriptoParser.ExecutorRebalance
import CriptoParser.ExecutorPaperTrading
import CriptoParser.ExecutorLoop
import CriptoParser.BalanceLedger
import CriptoParser.ExecutorForecast
import CriptoParser.ExecutorLedger
import CriptoParser.ExecutorSupply
import CriptoParser.KillSwitch
import CriptoParser.MoneyConservation
import CriptoParser.ExecutorSolvency
import CriptoParser.ExecutorPrudence
import CriptoParser.OperatorBalances
import CriptoParser.BalanceRaces
import CriptoParser.BatchAccounting
import CriptoParser.ScannerSpreads
import CriptoParser.ScannerLoop
import CriptoParser.ScannerHistory
import CriptoParser.ScannerPasses
import CriptoParser.OpportunityDedup
import CriptoParser.SpreadProfit
import CriptoParser.DepthSizes
import CriptoParser.AutoSwitch
import CriptoParser.ExecutorStartup
import CriptoParser.RetryQueue
import CriptoParser.NotifierQueue
import CriptoParser.NotifierDelivery
import CriptoParser.NotifierShutdown
import CriptoParser.CollectorWriter
import CriptoParser.CollectorBatches
import CriptoParser.GatewayFeed
import CriptoParser.FeedCompleteness
import CriptoParser.PythonFloats
import CriptoParser.FloatOrder
import CriptoParser.FloatDepth
import CriptoParser.FloatSpreads
import CriptoParser.FloatRoutes
import CriptoParser.GatewaySettings
import CriptoParser.SettingsConsumers
import CriptoParser.QuoteAges
import CriptoParser.ScannerStores
import CriptoParser.UnackedEntries
import CriptoParser.BestExecution
import CriptoParser.TruncatedDepth
import CriptoParser.SpreadSpec
import CriptoParser.SqlColumns
import CriptoParser.StorableOpportunities
import CriptoParser.TradeAccounting
import CriptoParser.RunningBalance
import CriptoParser.RebalanceCure
import CriptoParser.StorableTrades
import CriptoParser.StreamCodecs
import CriptoParser.SqlTables
import CriptoParser.CollectorTargets
import CriptoParser.RateLimiter
import CriptoParser.SqlPages
import CriptoParser.GatewayTrades
import CriptoParser.TradePages
import CriptoParser.TradeDates
import CriptoParser.TradeDeletes
import CriptoParser.SqlGroups
import CriptoParser.GatewayAnalytics
import CriptoParser.PriceSnapshot
import CriptoParser.SettingsUpdates
import CriptoParser.TradeStore
import CriptoParser.DashboardStore
import CriptoParser.OpportunityIds
import CriptoParser.TradePnl
import CriptoParser.BrowserEvents
import CriptoParser.WebSocketHook
import CriptoParser.WebSocketMounts
import CriptoParser.CollectorSockets
import CriptoParser.CollectorHandshakes
import CriptoParser.CollectorBackoff
import CriptoParser.CollectorFeed
import CriptoParser.HexText
import CriptoParser.GatewayPasswords
import CriptoParser.GatewayAccess
import CriptoParser.CsvText
import CriptoParser.TradeExport
import CriptoParser.GatewayStats
import CriptoParser.RouteThrottle
import CriptoParser.NotifierAlerts
import CriptoParser.GatewayHub
import CriptoParser.HubClients
import CriptoParser.MarketSystem
import CriptoParser.BookSources
import CriptoParser.BookProvenance
import CriptoParser.MarketProvenance
