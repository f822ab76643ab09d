import Ordust.Code.MarketBook
import Ordust.Lib.Runs

/-! # `reconciler.rs` -/

namespace Ordust

inductive SyncState where
  | buffering (queue : List DepthUpdate)
  | synced (book : MarketBook)

inductive ReconcileError where
  | gapDetected (expected got : UInt64)
  | snapshotTooOld
  deriving DecidableEq, Repr

structure Reconciler where
  state : SyncState

namespace Reconciler

def new : Reconciler := { state := .buffering [] }

def onDiff (pr : Profile) (self : Reconciler) (update : DepthUpdate) :
    Checked (Except ReconcileError Unit × Reconciler) :=
  match self.state with
  | .buffering bufferqueue => pure (.ok (), { state := .buffering (bufferqueue ++ [update]) })
  | .synced book => do
    let expected ← pr.add book.lastUpdateId 1
    if update.firstUpdateId = expected then
      pure (.ok (), { state := .synced (book.applyDiff update) })
    else
      pure (.error (.gapDetected expected update.firstUpdateId), { state := .buffering [] })

/-- The `for` loop that applies the buffered diffs from the straddling one on. -/
def bridge (pr : Profile) (marketbook : MarketBook) :
    List DepthUpdate → Checked (Except ReconcileError MarketBook)
  | [] => pure (.ok marketbook)
  | depths :: rest => do
    let expected ← pr.add marketbook.lastUpdateId 1
    if depths.firstUpdateId ≤ expected ∧ expected ≤ depths.finalUpdateId then
      bridge pr (marketbook.applyDiff depths) rest
    else
      pure (.error (.gapDetected expected depths.firstUpdateId))

def onSnapshot (pr : Profile) (self : Reconciler) (snapshot : Snapshot) :
    Checked (Except ReconcileError Unit × Reconciler) :=
  match self.state with
  | .buffering bufferqueue => do
    let marketbook := MarketBook.new.applySnapshot snapshot
    if bufferqueue.isEmpty then return (.ok (), { state := .synced marketbook })
    let seq ← pr.add marketbook.lastUpdateId 1
    match bufferqueue.findIdx? (fun d => d.firstUpdateId ≤ seq ∧ seq ≤ d.finalUpdateId) with
    | none => return (.error .snapshotTooOld, { state := .buffering [] })
    | some straddleIdx =>
      match ← bridge pr marketbook (bufferqueue.drop straddleIdx) with
      | .ok marketbook => return (.ok (), { state := .synced marketbook })
      | .error err => return (.error err, { state := .buffering [] })
  | .synced book => pure (.ok (), { state := .synced (book.applySnapshot snapshot) })

def book (self : Reconciler) : Option MarketBook :=
  match self.state with
  | .synced book => some book
  | .buffering _ => none

end Reconciler

/-! ## Runs -/

inductive Message where
  | diff (update : DepthUpdate)
  | snapshot (snapshot : Snapshot)
  deriving DecidableEq, Repr

namespace Reconciler

def onMessage (pr : Profile) (self : Reconciler) :
    Message → Checked (Except ReconcileError Unit × Reconciler)
  | .diff update => self.onDiff pr update
  | .snapshot snapshot => self.onSnapshot pr snapshot

def run (pr : Profile) (self : Reconciler) (messages : List Message) :
    Checked (List (Except ReconcileError Unit) × Reconciler) :=
  Runs.exec (onMessage pr) self messages

end Reconciler

end Ordust
