import AggKit.AggSender.StatusChecker

/-!
# What the recovery at start-up leaves

`recovers` says what is stored after a check that returns no error. The last sent certificate is
the newest one of the agglayer, unless that one is in error and was not sent by this database: then
it is not stored, and the last sent certificate is the last settled one.

The last settled certificate of the agglayer is stored as settled if the row at its height, where
there is one, has its id. `SaveOrUpdateCertificate` does nothing for a row with another id
(`conflicting_row_stays`).
-/

namespace AggKit.AggSender

open Table List CertificateHeader InitialStatus

variable {H : Type} [DecidableEq H]

/-- A stored certificate is the one that the agglayer has: its height, id and status. -/
structure CertificateHeader.Matches (l : CertificateHeader H) (c : Agglayer.CertificateHeader H) :
    Prop where
  height : l.height = c.height
  certificateID : l.certificateID = c.certificateID
  status : l.status = c.status

/-! ## The table of certificates -/

section storage

variable {db : Storage H} {certificateID : H} {newStatus : Agglayer.CertificateStatus}
  {updatedAt : ℕ} {l r cert : CertificateHeader H} {c : Agglayer.CertificateHeader H}

omit [DecidableEq H] in
theorem Storage.getLastSentCertificateHeader_eq_some_iff :
    db.getLastSentCertificateHeader = some l ↔ l ∈ db.rows ∧ ∀ r ∈ db.rows, r.height ≤ l.height :=
  db.lastBy_eq_some_iff

omit [DecidableEq H] in
theorem Storage.mem_of_getLastSentCertificateHeader (h : db.getLastSentCertificateHeader = some l) :
    l ∈ db.rows :=
  (getLastSentCertificateHeader_eq_some_iff.mp h).1

omit [DecidableEq H] in
theorem Storage.getLastSentCertificateHeader_eq_none_iff :
    db.getLastSentCertificateHeader = none ↔ db.rows = [] :=
  lastBy_eq_none_iff

omit [DecidableEq H] in
theorem Storage.mem_of_getLastSettledCertificate (h : db.getLastSettledCertificate = some r) :
    r ∈ db.rows ∧ r.status = .settled := by
  have hmem := mem_of_lastBy_eq_some h
  simpa using hmem

namespace CertificateHeader

theorem setStatus_certificateID :
    (r.setStatus certificateID newStatus updatedAt).certificateID = r.certificateID := by
  unfold setStatus
  split
  · rfl
  · rfl

theorem setStatus_of_ne (h : r.certificateID ≠ certificateID) :
    r.setStatus certificateID newStatus updatedAt = r := by
  unfold setStatus
  rw [if_neg h]

/-- The update of the row with the id of a certificate gives it the status of that. -/
theorem Matches.setStatus (hheight : r.height = c.height) (hid : r.certificateID = certificateID)
    (hc : certificateID = c.certificateID) :
    (r.setStatus certificateID c.status updatedAt).Matches c := by
  refine ⟨(setStatus_height _ _ _ _).trans hheight, setStatus_certificateID.trans (hid.trans hc), ?_⟩
  unfold CertificateHeader.setStatus
  rw [if_pos hid]

end CertificateHeader

namespace Storage

/-- An update of the status keeps the last certificate, with its new status. -/
theorem getLast_updateCertificateStatus (h : db.getLastSentCertificateHeader = some l) :
    (db.updateCertificateStatus certificateID newStatus updatedAt).getLastSentCertificateHeader =
      some (l.setStatus certificateID newStatus updatedAt) := by
  rw [getLastSentCertificateHeader_eq_some_iff] at h ⊢
  refine ⟨mem_map_of_mem h.1, fun r hr => ?_⟩
  obtain ⟨r', hr', rfl⟩ := mem_map.mp hr
  rw [setStatus_height, setStatus_height]
  exact h.2 r' hr'

/-- `SaveOrUpdateCertificate` inserts the certificate or, if its height is taken, updates the rows
with its id. -/
theorem saveOrUpdateCertificate_cases (db : Storage H) (cert : CertificateHeader H) :
    ((∀ r ∈ db.rows, r.height ≠ cert.height) ∧
        (db.saveOrUpdateCertificate cert).rows = db.rows ++ [cert]) ∨
      ((∃ r ∈ db.rows, r.height = cert.height) ∧
        db.saveOrUpdateCertificate cert =
          db.updateCertificateStatus cert.certificateID cert.status cert.updatedAt) := by
  unfold saveOrUpdateCertificate
  cases hinsert : db.insert cert with
  | some db' => exact .inl (Keyed.insert_eq_some_iff.mp hinsert)
  | none =>
    refine .inr ⟨?_, rfl⟩
    by_contra hfresh
    have hkeys : ∀ r ∈ db.rows, r.height ≠ cert.height := by simpa using hfresh
    obtain ⟨db', hdb', -⟩ := Keyed.exists_insert hkeys
    rw [hinsert] at hdb'
    cases hdb'

/-- A certificate above all others becomes the last one. -/
theorem getLast_save_of_lt (h : ∀ r ∈ db.rows, r.height < cert.height) :
    (db.saveOrUpdateCertificate cert).getLastSentCertificateHeader = some cert := by
  rcases db.saveOrUpdateCertificate_cases cert with ⟨-, hrows⟩ | ⟨⟨r, hr, hheight⟩, -⟩
  · rw [getLastSentCertificateHeader_eq_some_iff, hrows]
    rw [forall_mem_append, forall_mem_singleton]
    exact ⟨mem_append_right _ (.head _), fun r hr => (h r hr).le, le_rfl⟩
  · exact absurd (h r hr) (by omega)

/-- A certificate below the last one, with another id, leaves the last one. -/
theorem getLast_save_below (hlast : db.getLastSentCertificateHeader = some l)
    (hlt : cert.height < l.height) (hne : l.certificateID ≠ cert.certificateID) :
    (db.saveOrUpdateCertificate cert).getLastSentCertificateHeader = some l := by
  rcases db.saveOrUpdateCertificate_cases cert with ⟨-, hrows⟩ | ⟨-, hupdate⟩
  · rw [getLastSentCertificateHeader_eq_some_iff] at hlast
    rw [getLastSentCertificateHeader_eq_some_iff, hrows]
    rw [forall_mem_append, forall_mem_singleton]
    exact ⟨mem_append_left _ hlast.1, hlast.2, hlt.le⟩
  · rw [hupdate, getLast_updateCertificateStatus hlast,
      setStatus_of_ne hne]

/-- A certificate at the height of the last one, with its id, gives it its status. -/
theorem getLast_save_same (hcert : cert.Matches c) (hlast : db.getLastSentCertificateHeader = some l)
    (hheight : l.height = c.height) (hid : l.certificateID = c.certificateID) :
    ∃ l', (db.saveOrUpdateCertificate cert).getLastSentCertificateHeader = some l' ∧
      l'.Matches c := by
  have hmem := mem_of_getLastSentCertificateHeader hlast
  rcases db.saveOrUpdateCertificate_cases cert with ⟨hfresh, -⟩ | ⟨-, hupdate⟩
  · exact absurd (hheight.trans hcert.height.symm) (hfresh l hmem)
  · refine ⟨_, hupdate ▸ getLast_updateCertificateStatus hlast, ?_⟩
    rw [hcert.status]
    exact .setStatus hheight (hid.trans hcert.certificateID.symm) hcert.certificateID

/-- After `SaveOrUpdateCertificate` the certificate is stored, if no row with another id has its
height. -/
theorem mem_save (hcert : cert.Matches c)
    (hno : ∀ r ∈ db.rows, r.height = c.height → r.certificateID = c.certificateID) :
    ∃ r ∈ (db.saveOrUpdateCertificate cert).rows, r.Matches c := by
  rcases db.saveOrUpdateCertificate_cases cert with ⟨-, hrows⟩ | ⟨⟨r, hr, hheight⟩, hupdate⟩
  · exact ⟨cert, hrows ▸ mem_append_right _ (.head _), hcert⟩
  · have hheight' := hheight.trans hcert.height
    rw [hupdate, hcert.status]
    refine ⟨_, mem_map_of_mem hr, ?_⟩
    exact .setStatus hheight' ((hno r hr hheight').trans hcert.certificateID.symm)
      hcert.certificateID

end Storage

end storage

/-! ## The decision and the actions -/

section decision

variable {E : Type} {i : InitialStatus H} {q : CertQuerier H E} {now : ℕ} {db db' : Storage H}

namespace InitialStatus

/-- What `processLastLocalCert` can decide. -/
inductive DecidesLast (i : InitialStatus H) : InitialStatusResult H → Prop
  | ignore (hlocal : i.localLastCert = none) (hsettled : i.agglayerLastSettledCert = none)
      (hpending : ∀ p, i.agglayerLastPendingCert = some p → p.status = .inError) :
      i.DecidesLast .none
  | insert {c : Agglayer.CertificateHeader H} (hnewest : i.getLatestAggLayerCert = some c)
      (hnext : ∀ l, i.localLastCert = some l → c.height = l.height + 1) :
      i.DecidesLast (.insertNewCert c)
  | update {c : Agglayer.CertificateHeader H} {l : CertificateHeader H}
      (hnewest : i.getLatestAggLayerCert = some c) (hlocal : i.localLastCert = some l)
      (hid : l.certificateID = c.certificateID) : i.DecidesLast (.updateCurrentCert c)

theorem compareLastCert_cases {action : InitialStatusResult H}
    (h : (i.compareLastCert : Except (RecoveryError H E) _) = .ok action) :
    i.DecidesLast action := by
  unfold compareLastCert at h
  split at h
  · rename_i hlocal hnewest
    cases h
    unfold getLatestAggLayerCert at hnewest
    split at hnewest
    · rename_i hpending
      exact .ignore hlocal hnewest (by simp [hpending])
    · cases hnewest
  · rename_i hlocal hnewest
    cases h
    exact .insert hnewest (by simp [hlocal])
  · cases h
  · rename_i l c hlocal hnewest
    split_ifs at h with hless hnext hid
    · cases h
      refine .insert hnewest fun l' hl' => ?_
      cases hlocal.symm.trans hl'
      exact hnext
    · cases h
      exact .update hnewest hlocal (not_not.1 hid)

theorem processLastLocalCert_cases {action : InitialStatusResult H}
    (h : (i.processLastLocalCert : Except (RecoveryError H E) _) = .ok action) :
    i.DecidesLast action := by
  unfold processLastLocalCert at h
  split at h
  · rename_i pending hlocal hsettled hpending
    split_ifs at h with hzero herror
    · cases h
      refine .insert ?_ (by simp [hlocal])
      unfold getLatestAggLayerCert
      rw [hpending]
    · cases h
      refine .ignore hlocal hsettled fun p hp => ?_
      cases hpending.symm.trans hp
      simpa [Agglayer.CertificateStatus.isInError] using herror
  · exact compareLastCert_cases h

/-- What `processLastSettledCert` can decide. -/
inductive DecidesSettled (i : InitialStatus H) :
    Option (InitialStatusResult H) → Prop
  | noPending (hpending : i.agglayerLastPendingCert = none) : i.DecidesSettled none
  | noSettled (hpending : i.agglayerLastPendingCert ≠ none)
      (hsettled : i.agglayerLastSettledCert = none) : i.DecidesSettled (some .none)
  | stored {s : Agglayer.CertificateHeader H} {r : CertificateHeader H}
      (hpending : i.agglayerLastPendingCert ≠ none)
      (hsettled : i.agglayerLastSettledCert = some s) (hlocal : i.localLastSettledCert = some r)
      (hheight : r.height = s.height) (hid : r.certificateID = s.certificateID) :
      i.DecidesSettled (some .none)
  | insert {s : Agglayer.CertificateHeader H} (hpending : i.agglayerLastPendingCert ≠ none)
      (hsettled : i.agglayerLastSettledCert = some s) : i.DecidesSettled (some (.insertNewCert s))

theorem processLastSettledCert_cases {action : Option (InitialStatusResult H)}
    (h : (i.processLastSettledCert : Except (RecoveryError H E) _) = .ok action) :
    i.DecidesSettled action := by
  unfold processLastSettledCert at h
  split at h
  · rename_i hpending
    cases h
    exact .noPending hpending
  · cases h
  · rename_i hpending hsettled _
    cases h
    exact .noSettled (by simp [hpending]) hsettled
  · rename_i hpending hsettled _
    cases h
    exact .insert (by simp [hpending]) hsettled
  · rename_i settled localSettled hpending hsettled hlocal
    split_ifs at h with hless hsame hid
    · cases h
      exact .stored (by simp [hpending]) hsettled hlocal hsame (not_not.1 hid)
    · cases h
      exact .insert (by simp [hpending]) hsettled

end InitialStatus

/-- An insertion that returns no error is of a certificate that is in error, which is not stored, or
of a settled one. -/
theorem executeInitialStatusAction_insert {localCert : Option (CertificateHeader H)}
    {c : Agglayer.CertificateHeader H}
    (h : executeInitialStatusAction q now localCert db (.insertNewCert c) = .ok db') :
    (c.status = .inError ∧ db' = db) ∨
      (c.status = .settled ∧ ∃ cert : CertificateHeader H, cert.Matches c ∧
        db' = db.saveOrUpdateCertificate cert) := by
  unfold executeInitialStatusAction at h
  dsimp only at h
  split_ifs at h with herror hopen
  · exact .inl ⟨by simpa [Agglayer.CertificateStatus.isInError] using herror, (Except.ok.inj h).symm⟩
  · refine .inr ⟨Agglayer.CertificateStatus.eq_settled_of_not (by simpa using herror)
      (by simpa using hopen), ?_⟩
    unfold CertQuerier.newSettledCertificateInfo at h
    split at h
    · cases h
    · exact ⟨_, ⟨rfl, rfl, rfl⟩, (Except.ok.inj h).symm⟩

/-- The two actions of a check that returns no error. -/
theorem checkLastCertificateFromAgglayer_cases
    {settled pending : Option (Agglayer.CertificateHeader H)}
    (h : checkLastCertificateFromAgglayer q now settled pending db = .ok db') :
    ∃ last settledAction db1,
      (⟨settled, pending, db.getLastSentCertificateHeader, db.getLastSettledCertificate⟩ :
        InitialStatus H).DecidesLast last ∧
      (⟨settled, pending, db.getLastSentCertificateHeader, db.getLastSettledCertificate⟩ :
        InitialStatus H).DecidesSettled settledAction ∧
      executeInitialStatusAction q now db.getLastSentCertificateHeader db last = .ok db1 ∧
      settledAction.toList.foldlM
        (executeInitialStatusAction q now db.getLastSentCertificateHeader) db1 = .ok db' := by
  obtain ⟨actions, hprocess, hexecute⟩ := Exec.except_bind_ok.mp h
  obtain ⟨-, -, hprocess⟩ := Exec.except_bind_ok.mp hprocess
  obtain ⟨last, hlast, hprocess⟩ := Exec.except_bind_ok.mp hprocess
  obtain ⟨settledAction, hsettled, hactions⟩ := Exec.except_bind_ok.mp hprocess
  obtain rfl : last :: settledAction.toList = actions := Except.ok.inj hactions
  obtain ⟨db1, hfirst, hsecond⟩ := Exec.except_bind_ok.mp hexecute
  exact ⟨last, settledAction, db1, processLastLocalCert_cases hlast,
    processLastSettledCert_cases hsettled, hfirst, hsecond⟩

end decision

/-! ## After the check -/

/-- The certificates that the agglayer returns are the last ones of one chain, and an id, being a
hash of the certificate with its height, stands for one height. -/
structure Consistent (settled pending : Option (Agglayer.CertificateHeader H)) (db : Storage H) :
    Prop where
  settled_status : ∀ s, settled = some s → s.status = .settled
  pending_status : ∀ p, pending = some p → p.status ≠ .settled
  next : ∀ s p, settled = some s → pending = some p →
    p.height = s.height + 1 ∧ s.certificateID ≠ p.certificateID
  height : ∀ r ∈ db.rows, ∀ c, (settled = some c ∨ pending = some c) →
    r.certificateID = c.certificateID → r.height = c.height

/-- No row with another id has the height of the certificate. -/
def Storage.NoConflict (db : Storage H) (c : Agglayer.CertificateHeader H) : Prop :=
  ∀ r ∈ db.rows, r.height = c.height → r.certificateID = c.certificateID

section recovery

open Storage

variable {E : Type} {q : CertQuerier H E} {now : ℕ} {db db1 db' : Storage H}
  {settled pending : Option (Agglayer.CertificateHeader H)} {c s p : Agglayer.CertificateHeader H}
  {l : CertificateHeader H}

/-- The update of the last certificate gives it its status, leaves the rows with another id and keeps
heights and ids. -/
theorem executeInitialStatusAction_update (hlast : db.getLastSentCertificateHeader = some l)
    (hheight : l.height = c.height) (hid : l.certificateID = c.certificateID)
    (h : executeInitialStatusAction q now (some l) db (.updateCurrentCert c) = .ok db1) :
    (∃ l', db1.getLastSentCertificateHeader = some l' ∧ l'.Matches c) ∧
      (∀ r ∈ db.rows, r.certificateID ≠ c.certificateID → r ∈ db1.rows) ∧
      ∀ r1 ∈ db1.rows, ∃ r ∈ db.rows, r1.height = r.height ∧ r1.certificateID = r.certificateID := by
  have hdb : updateCertificateStatus now db l c = db1 := Except.ok.inj h
  unfold updateCertificateStatus at hdb
  split_ifs at hdb with hstatus
  · subst hdb
    exact ⟨⟨l, hlast, hheight, hid, hstatus⟩, fun r hr _ => hr, fun r hr => ⟨r, hr, rfl, rfl⟩⟩
  · subst hdb
    refine ⟨⟨_, getLast_updateCertificateStatus hlast, .setStatus hheight rfl hid⟩, fun r hr hne =>
      mem_map.mpr ⟨r, hr, setStatus_of_ne (hid ▸ hne)⟩, fun r1 hr1 => ?_⟩
    obtain ⟨r, hr, rfl⟩ := mem_map.mp hr1
    exact ⟨r, hr, setStatus_height _ _ _ _, setStatus_certificateID⟩

/-- Without a pending certificate there is one action, for the settled one. -/
theorem recovers_settled (hview : Consistent settled none db) (hs : settled = some s)
    (h : checkLastCertificateFromAgglayer q now settled none db = .ok db') :
    ∃ l, db'.getLastSentCertificateHeader = some l ∧ l.Matches s := by
  obtain ⟨last, settledAction, db1, hlast, hsettled, hfirst, hsecond⟩ :=
    checkLastCertificateFromAgglayer_cases h
  have hdb : db1 = db' := by
    cases hsettled with
    | noPending => exact Except.ok.inj hsecond
    | noSettled hpending | stored hpending | insert hpending => exact absurd rfl hpending
  subst hdb
  cases hlast with
  | ignore _ hnone => exact absurd (hs.symm.trans hnone) (by simp)
  | insert hnewest hnext =>
    obtain rfl : s = _ := Option.some.inj (hs.symm.trans hnewest)
    rcases executeInitialStatusAction_insert hfirst with ⟨herror, -⟩ | ⟨-, cert, hcert, rfl⟩
    · exact absurd (herror.symm.trans (hview.settled_status s hs)) (by decide)
    · refine ⟨cert, getLast_save_of_lt fun r hr => ?_, hcert⟩
      cases hl : db.getLastSentCertificateHeader with
      | none =>
        rw [getLastSentCertificateHeader_eq_none_iff.mp hl] at hr
        cases hr
      | some l =>
        have hle := (getLastSentCertificateHeader_eq_some_iff.mp hl).2 r hr
        have hheight := hnext l hl
        rw [hcert.height]
        omega
  | @update c l hnewest hlocal hid =>
    obtain rfl : s = c := Option.some.inj (hs.symm.trans hnewest)
    have hlast : db.getLastSentCertificateHeader = some l := hlocal
    have hmem := mem_of_getLastSentCertificateHeader hlast
    have hheight := hview.height l hmem s (.inl hs) hid
    rw [hlast] at hfirst
    exact (executeInitialStatusAction_update hlast hheight hid hfirst).1

/-- The last local certificate is the one of the agglayer. -/
def Storage.HasSent (db : Storage H) (c : Agglayer.CertificateHeader H) : Prop :=
  ∃ l, db.getLastSentCertificateHeader = some l ∧ l.certificateID = c.certificateID

/-- With a pending certificate, the first action updates it if it is the last local certificate, and
otherwise does nothing, since the pending one is in error. The second action is for the settled
one. -/
theorem recovers_actions (hview : Consistent settled (some p) db)
    (h : checkLastCertificateFromAgglayer q now settled (some p) db = .ok db') :
    ∃ db1, ((p.status = .inError ∧ db1 = db ∧ ∀ l, db.getLastSentCertificateHeader = some l →
          p.height = l.height + 1) ∨
        ∃ l, db.getLastSentCertificateHeader = some l ∧ l.certificateID = p.certificateID ∧
          l.height = p.height ∧
          executeInitialStatusAction q now (some l) db (.updateCurrentCert p) = .ok db1) ∧
      (settled = none → db' = db1) ∧ ∀ s, settled = some s →
        (db' = db1 ∧ ∃ r ∈ db.rows, r.Matches s) ∨
          ∃ cert : CertificateHeader H, cert.Matches s ∧ db' = db1.saveOrUpdateCertificate cert := by
  obtain ⟨last, action, db1, hlast, hsettled, hfirst, hsecond⟩ :=
    checkLastCertificateFromAgglayer_cases h
  refine ⟨db1, ?_, ?_⟩
  · cases hlast with
    | ignore hlocal _ hpending =>
      refine .inl ⟨hpending p rfl, (Except.ok.inj hfirst).symm, fun l hl => ?_⟩
      exact absurd (hl.symm.trans hlocal) (by simp)
    | insert hnewest hnext =>
      obtain rfl : p = _ := Option.some.inj hnewest
      rcases executeInitialStatusAction_insert hfirst with ⟨herror, rfl⟩ | ⟨hsettled, -⟩
      · exact .inl ⟨herror, rfl, hnext⟩
      · exact absurd hsettled (hview.pending_status p rfl)
    | @update c l hnewest hlocal hid =>
      obtain rfl : p = c := Option.some.inj hnewest
      have hl : db.getLastSentCertificateHeader = some l := hlocal
      rw [hl] at hfirst
      exact .inr ⟨l, hl, hid, hview.height l (mem_of_getLastSentCertificateHeader hl) p (.inr rfl) hid,
        hfirst⟩
  · cases hsettled with
    | noPending hpending => cases hpending
    | noSettled _ hnone =>
      exact ⟨fun _ => (Except.ok.inj hsecond).symm, fun s hs => by simp [hs] at hnone⟩
    | @stored s r _ hs hlocal hheight hid =>
      have hr := mem_of_getLastSettledCertificate hlocal
      have hstatus : r.status = s.status := hr.2.trans (hview.settled_status s hs).symm
      have hdb := (Except.ok.inj hsecond).symm
      refine ⟨fun _ => hdb, fun s' hs' => .inl ⟨hdb, ?_⟩⟩
      cases hs.symm.trans hs'
      exact ⟨r, hr.1, hheight, hid, hstatus⟩
    | @insert s _ hs =>
      obtain ⟨db2, hinsert, hdb⟩ := Exec.except_bind_ok.mp hsecond
      obtain rfl : db2 = db' := Except.ok.inj hdb
      refine ⟨fun hnone => by simp [hnone] at hs, fun s' hs' => .inr ?_⟩
      cases hs.symm.trans hs'
      rcases executeInitialStatusAction_insert hinsert with ⟨herror, -⟩ | ⟨-, hsaved⟩
      · exact absurd (herror.symm.trans (hview.settled_status s hs)) (by decide)
      · exact hsaved

/-- A pending certificate that is the last local one gets its status. -/
theorem recovers_sent (hview : Consistent settled (some p) db) (hsent : db.HasSent p)
    (h : checkLastCertificateFromAgglayer q now settled (some p) db = .ok db') :
    ∃ l, db'.getLastSentCertificateHeader = some l ∧ l.Matches p := by
  obtain ⟨db1, ⟨-, -, hnext⟩ | ⟨l, hl, hid, hheight, hupdate⟩, hnone, hsome⟩ :=
    recovers_actions hview h
  · obtain ⟨l, hl, hid⟩ := hsent
    have hheight := hview.height l (mem_of_getLastSentCertificateHeader hl) p (.inr rfl) hid
    have := hnext l hl
    omega
  obtain ⟨⟨l1, hl1, hmatch⟩, -⟩ := executeInitialStatusAction_update hl hheight hid hupdate
  cases hs : settled with
  | none => exact ⟨l1, hnone hs ▸ hl1, hmatch⟩
  | some s =>
    rcases hsome s hs with ⟨rfl, -⟩ | ⟨cert, hcert, rfl⟩
    · exact ⟨l1, hl1, hmatch⟩
    -- the settled certificate stands below the last one
    obtain ⟨hchain, hne⟩ := hview.next s p hs rfl
    refine ⟨l1, getLast_save_below hl1 ?_ ?_, hmatch⟩
    · rw [hcert.height, hmatch.height]
      omega
    · rw [hcert.certificateID, hmatch.certificateID]
      exact hne.symm

/-- The settled certificate is stored. -/
theorem recovers_stored (hview : Consistent settled (some p) db) (hs : settled = some s)
    (hno : db.NoConflict s)
    (h : checkLastCertificateFromAgglayer q now settled (some p) db = .ok db') :
    ∃ r ∈ db'.rows, r.Matches s := by
  obtain ⟨db1, hfirst, -, hsome⟩ := recovers_actions hview h
  have hrows : (∀ r ∈ db.rows, r.certificateID = s.certificateID → r ∈ db1.rows) ∧
      ∀ r1 ∈ db1.rows, ∃ r ∈ db.rows, r1.height = r.height ∧ r1.certificateID = r.certificateID := by
    rcases hfirst with ⟨-, rfl, -⟩ | ⟨l, hl, hid, hheight, hupdate⟩
    · exact ⟨fun r hr _ => hr, fun r hr => ⟨r, hr, rfl, rfl⟩⟩
    · obtain ⟨-, hkeep, hback⟩ := executeInitialStatusAction_update hl hheight hid hupdate
      exact ⟨fun r hr hrs => hkeep r hr (hrs ▸ (hview.next s p hs rfl).2), hback⟩
  rcases hsome s hs with ⟨rfl, r, hr, hmatch⟩ | ⟨cert, hcert, rfl⟩
  · exact ⟨r, hrows.1 r hr hmatch.certificateID, hmatch⟩
  · refine mem_save hcert fun r1 hr1 hheight => ?_
    obtain ⟨r, hr, hheight', hid'⟩ := hrows.2 r1 hr1
    exact hid'.trans (hno r hr (hheight'.symm.trans hheight))

/-- A pending certificate that is not the last local one is not stored; the settled one is the last
one then. -/
theorem recovers_ignored (hview : Consistent settled (some p) db) (hnot : ¬db.HasSent p)
    (h : checkLastCertificateFromAgglayer q now settled (some p) db = .ok db') :
    p.status = .inError ∧ (settled = none → db' = db) ∧
      ∀ s, settled = some s → db.NoConflict s →
        ∃ l, db'.getLastSentCertificateHeader = some l ∧ l.Matches s := by
  obtain ⟨db1, ⟨herror, rfl, hnext⟩ | ⟨l, hl, hid, -⟩, hnone, hsome⟩ := recovers_actions hview h
  · refine ⟨herror, hnone, fun s hs hno => ?_⟩
    have hcase := hsome s hs
    obtain ⟨hchain, -⟩ := hview.next s p hs rfl
    cases hl : db1.getLastSentCertificateHeader with
    | none =>
      have hempty := getLastSentCertificateHeader_eq_none_iff.mp hl
      rcases hcase with ⟨-, r, hr, -⟩ | ⟨cert, hcert, rfl⟩
      · exact absurd hr (hempty ▸ not_mem_nil)
      · exact ⟨cert, getLast_save_of_lt (by simp [hempty]), hcert⟩
    | some l =>
      -- the last local certificate is at the height of the settled one
      have hmem := mem_of_getLastSentCertificateHeader hl
      have := hnext l hl
      have hheight : l.height = s.height := by omega
      have hid := hno l hmem hheight
      rcases hcase with ⟨rfl, r, hr, hmatch⟩ | ⟨cert, hcert, rfl⟩
      · obtain rfl := Keyed.eq_of_key_eq db' hmem hr (hheight.trans hmatch.height.symm)
        exact ⟨l, hl, hmatch⟩
      · exact getLast_save_same hcert hl hheight hid
  · exact absurd ⟨l, hl, hid⟩ hnot

end recovery

/-- After a check without an error, on a consistent view of the agglayer: the last sent certificate
is the newest one of the agglayer, unless that is in error and is not the last local one; the last
settled certificate is stored if no row with another id has its height; and where the newest
certificate is in error and is not the last local one, the settled one is the last sent. -/
theorem recovers {E : Type} {q : CertQuerier H E} {now : ℕ} {db db' : Storage H}
    {settled pending : Option (Agglayer.CertificateHeader H)}
    (hview : Consistent settled pending db)
    (h : checkLastCertificateFromAgglayer q now settled pending db = .ok db') :
    (∀ c, pending.or settled = some c → c.status ≠ .inError ∨ db.HasSent c →
        ∃ l, db'.getLastSentCertificateHeader = some l ∧ l.Matches c) ∧
      (∀ s, settled = some s → db.NoConflict s → ∃ r ∈ db'.rows, r.Matches s) ∧
      ∀ p, pending = some p → ¬db.HasSent p → (settled = none → db' = db) ∧
        ∀ s, settled = some s → db.NoConflict s →
          ∃ l, db'.getLastSentCertificateHeader = some l ∧ l.Matches s := by
  cases pending with
  | none =>
    refine ⟨fun c hc _ => recovers_settled hview hc h, fun s hs _ => ?_, by simp⟩
    obtain ⟨l, hl, hmatch⟩ := recovers_settled hview hs h
    exact ⟨l, Storage.mem_of_getLastSentCertificateHeader hl, hmatch⟩
  | some p =>
    refine ⟨fun c hc hcase => ?_, fun s hs hno => recovers_stored hview hs hno h, fun p' hp' hnot => ?_⟩
    · obtain rfl : p = c := Option.some.inj hc
      by_cases hsent : db.HasSent p
      · exact recovers_sent hview hsent h
      · exact absurd (recovers_ignored hview hsent h).1 (hcase.resolve_right hsent)
    · obtain rfl : p = p' := Option.some.inj hp'
      exact (recovers_ignored hview hnot h).2

/-- A stored certificate of the examples. -/
def localCertificate (height id : ℕ) (status : Agglayer.CertificateStatus) : CertificateHeader ℕ :=
  ⟨height, 0, id, none, 0, 0, 0, status, 0, 0, none, 0, .pp, .aggLayer⟩

/-- A certificate of the agglayer in the examples. -/
def agglayerCertificate (height id : ℕ) (status : Agglayer.CertificateStatus) :
    Agglayer.CertificateHeader ℕ :=
  ⟨1, height, id, none, 0, status⟩

/-- A querier that finds no blocks. -/
def zeroQuerier : CertQuerier ℕ Unit := ⟨fun _ => .ok 0, fun _ => .pp⟩

/-- The database has the first certificate as pending, which has settled. -/
theorem recovers_first_settled : ∃ db' : Storage ℕ,
    checkLastCertificateFromAgglayer zeroQuerier 9 (some (agglayerCertificate 0 7 .settled)) none
        ⟨[localCertificate 0 7 .pending], by decide⟩ = .ok db' ∧
      ∃ l, db'.getLastSentCertificateHeader = some l ∧
        l.Matches (agglayerCertificate 0 7 .settled) := by
  have hview : Consistent (some (agglayerCertificate 0 7 .settled)) none
      (⟨[localCertificate 0 7 .pending], by decide⟩ : Storage ℕ) := by
    refine ⟨by simp [agglayerCertificate], by simp, by simp, fun r hr c hc _ => ?_⟩
    obtain rfl := mem_singleton.mp hr
    obtain rfl := Option.some.inj (hc.resolve_right (by simp))
    rfl
  have hcheck : checkLastCertificateFromAgglayer zeroQuerier 9
      (some (agglayerCertificate 0 7 .settled)) none ⟨[localCertificate 0 7 .pending], by decide⟩ =
      .ok ⟨[{ localCertificate 0 7 .settled with updatedAt := 9 }], by decide⟩ := rfl
  exact ⟨_, hcheck, (recovers hview hcheck).1 _ rfl (.inl (by decide))⟩

/-- A certificate in error that this database has not sent is not stored. -/
theorem newest_in_error_not_stored : ∃ db' : Storage ℕ,
    Consistent (some (agglayerCertificate 0 7 .settled)) (some (agglayerCertificate 1 8 .inError))
        (Keyed.empty : Storage ℕ) ∧
      checkLastCertificateFromAgglayer zeroQuerier 9 (some (agglayerCertificate 0 7 .settled))
        (some (agglayerCertificate 1 8 .inError)) Keyed.empty = .ok db' ∧
      ∀ l, db'.getLastSentCertificateHeader = some l → l.height = 0 := by
  refine ⟨⟨[localCertificate 0 7 .settled], by decide⟩, ⟨?_, ?_, ?_, ?_⟩, rfl, ?_⟩
  · simp [agglayerCertificate]
  · simp [agglayerCertificate]
  · rintro s p ⟨⟩ ⟨⟩
    exact ⟨rfl, by decide⟩
  · exact fun r hr => absurd hr not_mem_nil
  · rintro l ⟨⟩
    rfl

/-- A row with another id at the height of the settled certificate stays, and the settled
certificate is not stored. -/
theorem conflicting_row_stays :
    checkLastCertificateFromAgglayer zeroQuerier 9 (some (agglayerCertificate 0 7 .settled))
        (some (agglayerCertificate 1 8 .inError)) ⟨[localCertificate 0 6 .inError], by decide⟩ =
      .ok ⟨[localCertificate 0 6 .inError], by decide⟩ := rfl

end AggKit.AggSender
