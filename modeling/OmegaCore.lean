import OmegaCore.Bls.ContributionVerifier
import OmegaCore.Bls.LazyWrapper
import OmegaCore.Chainstate.BlockUndo
import OmegaCore.CoinJoin.Signing
import OmegaCore.Consensus.FallingThreshold
import OmegaCore.Evo.LivenessSweep
import OmegaCore.Evo.ManagerRun
import OmegaCore.Evo.OperatorKeys
import OmegaCore.Evo.ProjectedPayees
import OmegaCore.Evo.Revival
import OmegaCore.Governance.OrphanVotes
import OmegaCore.Llmq.ChainLocks
import OmegaCore.Llmq.CommitmentCount
import OmegaCore.Llmq.DkgMessages
import OmegaCore.Llmq.InstantSendDb
import OmegaCore.Llmq.InstantSendDelivery
import OmegaCore.Llmq.NonLockedTxs
import OmegaCore.Llmq.RelayMembers
import OmegaCore.Llmq.RotationHistory
import OmegaCore.Llmq.SigShares
import OmegaCore.Llmq.SigningVotes
import OmegaCore.Masternode.SuperblockSpending
import OmegaCore.Pow.LwmaMonotone
import OmegaCore.Script.SigOps
import OmegaCore.Serialize.BitSet
import OmegaCore.Smsg.AnchorLimits
import OmegaCore.Smsg.AnchorReload
import OmegaCore.Smsg.BoundedReads
import OmegaCore.Smsg.MerkleBranch
import OmegaCore.Smsg.PayloadLimits
import OmegaCore.Smsg.PurgedMessages
import OmegaCore.Smsg.Retention
import OmegaCore.Smsg.TopicFiling
