import BitShares.Chain.Proof.Audit
import BitShares.Chain.Proof.Pay
import BitShares.Chain.Proof.Reputation
import BitShares.Chain.Proof.Secrets
import BitShares.Chain.Proof.TimeSearch
import BitShares.Chain.Proof.Vesting
import BitShares.Fork.Proof.Choice
import BitShares.Fork.Proof.Flags
import BitShares.Fork.Proof.Future
import BitShares.Fork.Proof.Pool
import BitShares.Fork.Proof.Replay
import BitShares.Fork.Proof.Search
import BitShares.Game.Proof.Atomicity
import BitShares.Game.Proof.Detour
import BitShares.Game.Proof.Fees
import BitShares.Ledger.Proof.AmountText
import BitShares.Ledger.Proof.Holders
import BitShares.Ledger.Proof.Names
import BitShares.Ledger.Proof.Prices
import BitShares.Ledger.Proof.Ranking
import BitShares.Ledger.Proof.Split
import BitShares.Ledger.Proof.Symbols
import BitShares.Ledger.Proof.Yield
import BitShares.Net.Proof.ChainServer
import BitShares.Net.Proof.Framing
import BitShares.Net.Proof.Identity
import BitShares.Net.Proof.PeerDatabase
import BitShares.Net.Proof.Requests
import BitShares.Sync.Proof.Length
import BitShares.Wallet.Proof.Scan
import BitShares.Wallet.Proof.Settling
