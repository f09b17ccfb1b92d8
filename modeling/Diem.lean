import Diem.Accumulator
import Diem.Agreement
import Diem.Assembly
import Diem.Calls
import Diem.Candidates
import Diem.Certificates
import Diem.Complete
import Diem.Confluence
import Diem.Declined
import Diem.Elections
import Diem.Execution
import Diem.Fetch
import Diem.Inflation
import Diem.Liveness
import Diem.Mempool
import Diem.Messages
import Diem.Progress
import Diem.Proposals
import Diem.Pruning
import Diem.Reports
import Diem.Rounds
import Diem.Serve
import Diem.Signer
import Diem.Sync
import Diem.Tenure
import Diem.Thresholds
import Diem.Timer
import Diem.Authors
import Diem.Delivery
