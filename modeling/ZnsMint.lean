import ZnsMint.Basic
import ZnsMint.Note
import ZnsMint.Inbound
import ZnsMint.NameNoteQueue
import ZnsMint.Lib.Rollback
import ZnsMint.Lib.Checkpoints
import ZnsMint.Lib.EventLog
import ZnsMint.Lib.Machine
import ZnsMint.Lib.Text
import ZnsMint.Lib.Strikes
import ZnsMint.Lib.OrderStatistic
import ZnsMint.Lib.Timeline
import ZnsMint.Lib.LargestFirst
import ZnsMint.Mtp
import ZnsMint.Wire
import ZnsMint.Note.Preimage
import ZnsMint.Note.Codec
import ZnsMint.Inbound.Codec
import ZnsMint.AnchorPool
import ZnsMint.Registry
import ZnsMint.Registry.Steps
import ZnsMint.Registry.Chains
import ZnsMint.Registry.Rewind
import ZnsMint.Registry.Spends
import ZnsMint.Registry.Blocks
import ZnsMint.Registry.Authority
import ZnsMint.Registry.Notes
import ZnsMint.Registry.Age
import ZnsMint.Registry.Gate
import ZnsMint.Market
import ZnsMint.Market.Rewind
import ZnsMint.Market.Steps
import ZnsMint.Market.Answers
import ZnsMint.Market.Notices
import ZnsMint.Market.Attempts
import ZnsMint.Market.Settlement
import ZnsMint.Market.Agreement
import ZnsMint.Market.Flags
import ZnsMint.Inbound.Prices
import ZnsMint.Inbound.Languages
import ZnsMint.Pricing
import ZnsMint.Pricing.Oracle
import ZnsMint.Pricing.Aggregate
import ZnsMint.OrderBook
import ZnsMint.Lib.Joins
import ZnsMint.Presale
import ZnsMint.RegistryWallet
import ZnsMint.Treasury
import ZnsMint.Inbound.Challenges
import ZnsMint.Inbound.OtpQueue
import ZnsMint.Wallet
import ZnsMint.Assemble
import ZnsMint.Assemble.Funding
import ZnsMint.Assemble.Balance
import ZnsMint.Wallet.Input
import ZnsMint.Wallet.Write
import ZnsMint.Wallet.Steps
import ZnsMint.Wallet.Reachable
import ZnsMint.Wallet.Rollback
import ZnsMint.Wallet.Spends
import ZnsMint.Lib.Calls
import ZnsMint.Wallet.Commit
import ZnsMint.Lib.Collect
import ZnsMint.Wallet.Select
import ZnsMint.Wallet.Balance
import ZnsMint.Live
import ZnsMint.Treasury.Codes
import ZnsMint.Live.Steps
import ZnsMint.Live.Ground
import ZnsMint.Live.Queue
import ZnsMint.Live.Orders
import ZnsMint.Live.Codes
import ZnsMint.Live.Claims
import ZnsMint.Live.Reorg
import ZnsMint.Live.Payments
import ZnsMint.Live.Broadcasts
import ZnsMint.Live.Expiry
import ZnsMint.Live.Settled
import ZnsMint.Live.Boot
import ZnsMint.Live.Heights
import ZnsMint.Live.Trades
import ZnsMint.Live.Agreement
import ZnsMint.Live.Lock
import ZnsMint.Live.Restart
import ZnsMint.Lib.HashChain
import ZnsMint.Zebra
import ZnsMint.Live.Rates
import ZnsMint.RunLoop
import ZnsMint.RunLoop.Steps
import ZnsMint.RunLoop.Agreement
import ZnsMint.RunLoop.Refinement
import ZnsMint.RunLoop.Clock
import ZnsMint.RunLoop.Sweeps
import ZnsMint.RunLoop.Progress
import ZnsMint.RunLoop.Fatal
import ZnsMint.Lib.Simulation
import ZnsMint.Wallet.RegistryView
import ZnsMint.Wallet.Trees
import ZnsMint.Wallet.Decrypt
import ZnsMint.Wallet.NameNotes
import ZnsMint.Wallet.RegistryRuns
import ZnsMint.Live.Tables
import ZnsMint.RunLoop.Cursor
import ZnsMint.RunLoop.Tables
