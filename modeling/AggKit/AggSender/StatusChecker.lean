import AggKit.AggSender.Types
import AggKit.Lib.Exec

/-!
# Recovery at start-up, as in `aggsender/statuschecker`

At start-up the aggsender compares the last certificate in its table `certificate_info` with the
last settled and the last pending certificate of the agglayer. `process` decides on at most two
actions, one for the newest certificate of the agglayer and one for its last settled one, and
`executeInitialStatusAction` carries them out.

A certificate that is inserted is one that was not sent by this database, so its block range is not
known. One that is in error is therefore not stored, and one that is still open makes the check fail
until it is closed. `SaveOrUpdateCertificate` inserts a certificate unless its height is taken;
where it is, it updates the status of the rows with the same id, which may be none.
-/

namespace AggKit.AggSender

open Table

variable {H : Type}

/-! ## The table of certificates -/

/-- The table `certificate_info`, without the signed certificate and its proof. -/
abbrev Storage (H : Type) := Keyed (CertificateHeader.height (H := H))

/-- `GetLastSentCertificateHeader`. -/
def Storage.getLastSentCertificateHeader (db : Storage H) : Option (CertificateHeader H) :=
  lastBy (fun a b => decide (a.height ≤ b.height)) db.rows

/-- `GetLastSettledCertificate`. -/
def Storage.getLastSettledCertificate (db : Storage H) : Option (CertificateHeader H) :=
  lastBy (fun a b => decide (a.height ≤ b.height)) (db.rows.filter fun c => c.status = .settled)

section storage

variable [DecidableEq H]

/-- What `updateCertStatus` sets in a row. -/
def CertificateHeader.setStatus (certificateID : H) (newStatus : Agglayer.CertificateStatus)
    (updatedAt : ℕ) (c : CertificateHeader H) : CertificateHeader H :=
  if c.certificateID = certificateID then { c with status := newStatus, updatedAt := updatedAt }
  else c

theorem CertificateHeader.setStatus_height (certificateID : H)
    (newStatus : Agglayer.CertificateStatus) (updatedAt : ℕ) (c : CertificateHeader H) :
    (c.setStatus certificateID newStatus updatedAt).height = c.height := by
  unfold CertificateHeader.setStatus
  split
  · rfl
  · rfl

/-- `UpdateCertificateStatus`. -/
def Storage.updateCertificateStatus (db : Storage H) (certificateID : H)
    (newStatus : Agglayer.CertificateStatus) (updatedAt : ℕ) : Storage H :=
  db.map (CertificateHeader.setStatus certificateID newStatus updatedAt)
    (CertificateHeader.setStatus_height certificateID newStatus updatedAt)

/-- `SaveOrUpdateCertificate`. -/
def Storage.saveOrUpdateCertificate (db : Storage H) (certificate : CertificateHeader H) :
    Storage H :=
  match db.insert certificate with
  | some db' => db'
  | none => db.updateCertificateStatus certificate.certificateID certificate.status
      certificate.updatedAt

end storage

/-! ## The decision -/

/-- `initialStatus`. -/
structure InitialStatus (H : Type) where
  agglayerLastSettledCert : Option (Agglayer.CertificateHeader H)
  agglayerLastPendingCert : Option (Agglayer.CertificateHeader H)
  localLastCert : Option (CertificateHeader H)
  localLastSettledCert : Option (CertificateHeader H)

/-- `initialStatusResult`: an action with its certificate. -/
inductive InitialStatusResult (H : Type) where
  /-- `InitialStatusActionNone` -/
  | none
  /-- `InitialStatusActionUpdateCurrentCert` -/
  | updateCurrentCert (cert : Agglayer.CertificateHeader H)
  /-- `InitialStatusActionInsertNewCert` -/
  | insertNewCert (cert : Agglayer.CertificateHeader H)

/-- Why the check fails. -/
inductive RecoveryError (H E : Type) where
  /-- `pendingCert … is in state … but have a suspicious height, so we wait to finish` -/
  | suspiciousHeight (pending : Agglayer.CertificateHeader H)
  /-- `certificate exists in storage but not in agglayer` -/
  | notInAgglayer
  /-- `the last certificate in the agglayer has less height … than the one in the local storage` -/
  | lessHeight (agglayerHeight localHeight : ℕ)
  /-- `Local certificate … is different from agglayer certificate` -/
  | differentCertificate (localID agglayerID : H)
  /-- `no settled cert, and pending one is height … and not in error` -/
  | noSettledCert (pendingHeight : ℕ)
  /-- `settled … and pending … certs are different for same height` -/
  | sameHeight (settledID pendingID : H)
  /-- `settled cert height … is higher than pending cert height` -/
  | settledHigher (settledID pendingID : H)
  /-- `local settled certificate exists … but agglayer has no settled certificate` -/
  | onlyLocalSettled (localID : H)
  /-- `local settled certificate … has higher height` -/
  | localSettledHigher (localHeight agglayerHeight : ℕ)
  /-- `local settled certificate … has same height … but different certificate ID` -/
  | localSettledDifferent (localID agglayerID : H)
  /-- `we have a non settled certificate … on startup` -/
  | nonSettledOnStartup (cert : Agglayer.CertificateHeader H)
  /-- `error getting last settled certificate to block` -/
  | toBlock (err : E)

section decision

variable [DecidableEq H] {E : Type}

/-- `getLatestAggLayerCert`. -/
def InitialStatus.getLatestAggLayerCert (i : InitialStatus H) :
    Option (Agglayer.CertificateHeader H) :=
  match i.agglayerLastPendingCert with
  | none => i.agglayerLastSettledCert
  | some pending => some pending

/-- `checkAgglayerConsistenceCerts`. -/
def InitialStatus.checkAgglayerConsistenceCerts (i : InitialStatus H) :
    Except (RecoveryError H E) Unit :=
  match i.agglayerLastPendingCert, i.agglayerLastSettledCert with
  | none, _ => .ok ()
  | some pending, none =>
    if !pending.status.isInError && pending.height ≠ 0 then .error (.noSettledCert pending.height)
    else .ok ()
  | some pending, some settled =>
    if pending.height = settled.height ∧ !settled.status.isInError then
      .error (.sameHeight settled.certificateID pending.certificateID)
    else if pending.height < settled.height ∧ !settled.status.isInError then
      .error (.settledHigher settled.certificateID pending.certificateID)
    else .ok ()

/-- The cases of `processLastLocalCert` from `CASE 1` on. -/
def InitialStatus.compareLastCert (i : InitialStatus H) :
    Except (RecoveryError H E) (InitialStatusResult H) :=
  match i.localLastCert, i.getLatestAggLayerCert with
  -- CASE 1
  | none, none => .ok .none
  -- CASE 2
  | none, some aggLayerLastCert => .ok (.insertNewCert aggLayerLastCert)
  -- CASE 2.1
  | some _, none => .error .notInAgglayer
  | some localLastCert, some aggLayerLastCert =>
    -- CASE 3.1
    if aggLayerLastCert.height < localLastCert.height then
      .error (.lessHeight aggLayerLastCert.height localLastCert.height)
    -- CASE 3.2
    else if aggLayerLastCert.height = localLastCert.height + 1 then
      .ok (.insertNewCert aggLayerLastCert)
    -- CASE 4
    else if localLastCert.certificateID ≠ aggLayerLastCert.certificateID then
      .error (.differentCertificate localLastCert.certificateID aggLayerLastCert.certificateID)
    -- CASE 5
    else .ok (.updateCurrentCert aggLayerLastCert)

/-- `processLastLocalCert`. -/
def InitialStatus.processLastLocalCert (i : InitialStatus H) :
    Except (RecoveryError H E) (InitialStatusResult H) :=
  match i.localLastCert, i.agglayerLastSettledCert, i.agglayerLastPendingCert with
  | none, none, some pending =>
    if pending.height = 0 then .ok (.insertNewCert pending)
    else if pending.status.isInError then .ok .none
    else .error (.suspiciousHeight pending)
  | _, _, _ => i.compareLastCert

/-- `processLastSettledCert`; the first `none` is its nil result. -/
def InitialStatus.processLastSettledCert (i : InitialStatus H) :
    Except (RecoveryError H E) (Option (InitialStatusResult H)) :=
  match i.agglayerLastPendingCert, i.agglayerLastSettledCert, i.localLastSettledCert with
  | none, _, _ => .ok none
  -- CASE 1
  | some _, none, some localSettled => .error (.onlyLocalSettled localSettled.certificateID)
  -- CASE 2
  | some _, none, none => .ok (some .none)
  -- CASE 3
  | some _, some settled, none => .ok (some (.insertNewCert settled))
  | some _, some settled, some localSettled =>
    -- CASE 4
    if settled.height < localSettled.height then
      .error (.localSettledHigher localSettled.height settled.height)
    else if localSettled.height = settled.height then
      -- CASE 5.1
      if localSettled.certificateID ≠ settled.certificateID then
        .error (.localSettledDifferent localSettled.certificateID settled.certificateID)
      -- CASE 5.2
      else .ok (some .none)
    -- CASE 6
    else .ok (some (.insertNewCert settled))

/-- `process`. -/
def InitialStatus.process (i : InitialStatus H) :
    Except (RecoveryError H E) (List (InitialStatusResult H)) := do
  i.checkAgglayerConsistenceCerts
  let pendingCertAction ← i.processLastLocalCert
  let settledCertAction ← i.processLastSettledCert
  return pendingCertAction :: settledCertAction.toList

/-! ## The actions -/

omit [DecidableEq H] in
/-- What the check asks of the certificate querier. -/
structure CertQuerier (H E : Type) where
  getLastSettledCertificateToBlock : Agglayer.CertificateHeader H → Except E ℕ
  calculateCertificateTypeFromToBlock : ℕ → CertificateType

/-- `newSettledCertificateInfoFromAgglayerCertHeader`. -/
def CertQuerier.newSettledCertificateInfo (q : CertQuerier H E) (cert : Agglayer.CertificateHeader H) :
    Except (RecoveryError H E) (CertificateHeader H) :=
  match q.getLastSettledCertificateToBlock cert with
  | .error e => .error (.toBlock e)
  | .ok toBlock => .ok
    { height := cert.height
      retryCount := 0
      certificateID := cert.certificateID
      previousLocalExitRoot := cert.previousLocalExitRoot
      newLocalExitRoot := cert.newLocalExitRoot
      fromBlock := 0
      toBlock := toBlock
      status := cert.status
      createdAt := 0
      updatedAt := 0
      finalizedL1InfoTreeRoot := none
      l1InfoTreeLeafCount := 0
      certType := q.calculateCertificateTypeFromToBlock toBlock
      certSource := .aggLayer }

/-- `updateCertificateStatus` of the status checker. -/
def updateCertificateStatus (now : ℕ) (db : Storage H) (localCert : CertificateHeader H)
    (agglayerCert : Agglayer.CertificateHeader H) : Storage H :=
  if localCert.status = agglayerCert.status then db
  else db.updateCertificateStatus localCert.certificateID agglayerCert.status now

/-- `executeInitialStatusAction`. An update without a local certificate does not happen: `process`
updates only where there is one. -/
def executeInitialStatusAction (q : CertQuerier H E) (now : ℕ)
    (localCert : Option (CertificateHeader H)) (db : Storage H) (action : InitialStatusResult H) :
    Except (RecoveryError H E) (Storage H) :=
  match action with
  | .none => .ok db
  | .updateCurrentCert cert =>
    match localCert with
    | none => .ok db
    | some localCert => .ok (updateCertificateStatus now db localCert cert)
  | .insertNewCert cert =>
    if cert.status.isInError then .ok db
    else if cert.status.isOpen then .error (.nonSettledOnStartup cert)
    else (q.newSettledCertificateInfo cert).map db.saveOrUpdateCertificate

/-- `checkLastCertificateFromAgglayer`, with the two certificates that the agglayer returns. -/
def checkLastCertificateFromAgglayer (q : CertQuerier H E) (now : ℕ)
    (settled pending : Option (Agglayer.CertificateHeader H)) (db : Storage H) :
    Except (RecoveryError H E) (Storage H) := do
  let localLastCert := db.getLastSentCertificateHeader
  let initialStatus : InitialStatus H :=
    ⟨settled, pending, localLastCert, db.getLastSettledCertificate⟩
  let actions ← initialStatus.process
  actions.foldlM (executeInitialStatusAction q now localLastCert) db

end decision

end AggKit.AggSender
