import SessionBuffers.Scenario.Run
import SessionBuffers.Proofs.Effect
import SessionBuffers.Proofs.History
import SessionBuffers.Proofs.Holding
import SessionBuffers.Proofs.Agreement
import SessionBuffers.Proofs.Alone
import SessionBuffers.Proofs.Linearization
import SessionBuffers.Proofs.Stages
import SessionBuffers.Proofs.Turnover
import SessionBuffers.Proofs.Conservation
import SessionBuffers.Proofs.Refinement
import SessionBuffers.Proofs.Refusal
import SessionBuffers.Proofs.Freshness
import SessionBuffers.Proofs.Ownership
import SessionBuffers.Proofs.Leakage
import SessionBuffers.Proofs.Isolation
import SessionBuffers.Proofs.Release
import SessionBuffers.Proofs.Accounts
import SessionBuffers.Proofs.Territory
import SessionBuffers.Proofs.Publication
import SessionBuffers.Proofs.Provision
import SessionBuffers.Proofs.Clearance
import SessionBuffers.Proofs.Repetition
import SessionBuffers.Proofs.Exchange
import SessionBuffers.Proofs.Scan
import SessionBuffers.Proofs.Recording
