import Mathlib.Logic.Equiv.List
import Mathlib.Tactic.DeriveEncodable
import Zapatos.Types.Ledger

namespace Zapatos

-- Injective encodings of the ledger types, the canonical collision-free hashes for concrete runs.
deriving instance Encodable for ValidatorConsensusInfo
deriving instance Encodable for ValidatorVerifier
deriving instance Encodable for EpochState
deriving instance Encodable for BlockInfo
deriving instance Encodable for LedgerInfo
deriving instance Encodable for AggregateSignature
deriving instance Encodable for LedgerInfoWithSignatures
deriving instance Encodable for Ledger2WaypointConverter

end Zapatos
