import ContentStore.Proofs.Agreement
import ContentStore.Proofs.AnySink
import ContentStore.Proofs.Budget
import ContentStore.Proofs.Failure
import ContentStore.Proofs.FromFile
import ContentStore.Proofs.Guarded
import ContentStore.Proofs.Integrity
import ContentStore.Proofs.Interrupted
import ContentStore.Proofs.LifeCycle
import ContentStore.Proofs.Lookup
import ContentStore.Proofs.Neighbours
import ContentStore.Proofs.OwnFiles
import ContentStore.Proofs.Prefixes
import ContentStore.Proofs.Restart
import ContentStore.Proofs.SharedRoot
import ContentStore.Proofs.Spelling
import ContentStore.Proofs.Tally
import ContentStore.Proofs.Transfer
import ContentStore.Proofs.Unclobbered
import ContentStore.Proofs.Whereabouts
import ContentStore.Session
