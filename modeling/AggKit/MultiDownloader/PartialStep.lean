import AggKit.MultiDownloader.Synced

/-!
# A `StepUnsafe` that got some of the headers

`StepUnsafe` goes on when the node returns only some of the headers. It downloads one block after the
other, and adds each to the synced interval of its contracts. A missing header leaves a gap. Most gaps
make the step fail, since a pending interval cannot be split. The gap before the last pending block does
not: the pending interval loses its last block, and the synced one grows over the gap.

`stepUnsafe_clean_iff` says when a step that succeeded is right: exactly when no block that was not
downloaded lies between two that are synced or were downloaded.
-/

namespace AggKit.MultiDownloader

open SetSyncSegment BlockRange SetSyncSegment

variable {A H : Type} [DecidableEq A]

/-- The node returned the header of a pending block. Block 0 is never downloaded by its hash. -/
def UnsafeAnswers.Fetches (answers : UnsafeAnswers A H) (s : State A) (addr : A) (n : ℕ) : Prop :=
  n ≠ 0 ∧ n ∈ range s.pending addr ∧ ∃ headers total, answers.headers = some headers ∧
    getTotalPendingBlockRange s.pending = some total ∧
    ∃ h ∈ getOrderedHeaders headers total.listBlockNumbers, h.number = n

/-- A block of the contract was synced before, or its header was returned. -/
def UnsafeAnswers.Has (answers : UnsafeAnswers A H) (s : State A) (addr : A) (n : ℕ) : Prop :=
  n ∈ range s.synced addr ∨ answers.Fetches s addr n

/-- A block that is synced and pending is fetched, and no block without a header lies between two that a
contract has. -/
def UnsafeAnswers.LeavesNoGap (answers : UnsafeAnswers A H) (s : State A) : Prop :=
  (∀ addr n, n ∈ range s.synced addr → n ∈ range s.pending addr →
    answers.Fetches s addr n) ∧
  ∀ addr n, Between (answers.Has s addr) n → answers.Has s addr n

/-- The block was downloaded for the contract. -/
def Downloaded (downloads : List (Download A H)) (addr : A) (n : ℕ) : Prop :=
  ∃ d ∈ downloads, addr ∈ d.query.addrs ∧ n ∈ d.query.blockRange

/-- What a step should do: its logs are stored, the synced blocks in memory and in the rows are those of
before and those it downloaded, no synced block is pending, and a pending block that it did not download
still is. -/
structure CleanStep (md md' : Multidownloader A H) (s s' : State A) (downloads : List (Download A H)) :
    Prop where
  stored : ∀ d ∈ downloads, ∀ l ∈ d.logs, l.toRow ∈ md'.storage.logs.rows
  synced : ∀ addr n, n ∈ range s'.synced addr →
    n ∈ range s.synced addr ∨ Downloaded downloads addr n
  rows : ∀ addr n, n ∈ md'.storage.syncedRange addr → n ∈ md.storage.syncedRange addr ∨
    n ∈ range s.synced addr ∨ Downloaded downloads addr n
  disjoint : ∀ addr n, n ∈ range s'.synced addr →
    n ∉ range s'.pending addr
  pending : ∀ addr n, n ∈ range s.pending addr → ¬ Downloaded downloads addr n →
    n ∈ range s'.pending addr

/-- The synced range after several queries has the blocks between those of before and of the queries. -/
theorem State.between_afterLogQueries {queries : List (LogQuery A H)} {s s' : State A}
    (h : s.afterLogQueries queries = .ok s') {addr : A} {n : ℕ}
    (hn : n ∈ range s'.synced addr) :
    Between (fun m => m ∈ range s.synced addr ∨
      ∃ q ∈ queries, addr ∈ q.addrs ∧ m ∈ q.blockRange) n := by
  induction queries generalizing s with
  | nil =>
    cases h
    exact .of_mem (.inl hn)
  | cons q queries ih =>
    obtain ⟨s1, hfirst, hrest⟩ := Exec.except_bind_ok.mp h
    refine (ih hrest).trans fun m hm => ?_
    rcases hm with hm | ⟨q', hq', hm⟩
    · rw [(State.addSynced_spec hfirst).1] at hm
      split at hm
      · rename_i haddr
        refine (between_of_mem_extend hm).trans fun k hk => .of_mem ?_
        exact hk.imp_right fun hk => ⟨q, List.mem_cons_self, haddr, hk⟩
      · exact .of_mem (.inl hm)
    · exact .of_mem (.inr ⟨q', List.mem_cons_of_mem q hq', hm⟩)

/-- Between two blocks of a range are only blocks of it. -/
theorem BlockRange.mem_of_between {b : BlockRange} {n : ℕ} (h : Between (· ∈ b) n) : n ∈ b := by
  obtain ⟨⟨m1, hle1, hm1⟩, m2, hle2, hm2⟩ := h
  obtain ⟨hb, hlow, -⟩ := mem_iff.mp hm1
  obtain ⟨-, -, hhigh⟩ := mem_iff.mp hm2
  exact mem_iff.mpr ⟨hb, by omega, by omega⟩

variable [DecidableEq H]

/-- For every state and all answers of the node, a `StepUnsafe` that succeeds is right exactly when the
headers it got leave no gap. -/
theorem stepUnsafe_clean_iff {md md' : Multidownloader A H} {s : State A} (hstate : md.state = some s)
    {answers : UnsafeAnswers A H} {downloads : List (Download A H)}
    (hstep : md.stepUnsafe answers = .ok (md', downloads)) :
    (∃ s', md'.state = some s' ∧ CleanStep md md' s s' downloads) ↔ answers.LeavesNoGap s := by
  obtain ⟨rfl, rfl, hnone⟩ | ⟨s0, total, headers, s', storage, hstate0, htotal, hheaders, hqueries, -,
    -, hafter, hstore, rfl⟩ := Multidownloader.stepUnsafe_cases hstep
  · -- nothing is pending
    have hpending := notMem_range_of_getTotalPendingBlockRange (hnone s hstate)
    refine iff_of_true ⟨s, hstate, by simp, fun _ _ => .inl, fun _ _ => .inl,
      fun addr n _ => hpending addr n, fun addr n hn => absurd hn (hpending addr n)⟩
      ⟨fun addr n _ hn => absurd hn (hpending addr n), fun addr n hn => .inl ?_⟩
    refine mem_of_between (hn.trans fun m hm => .of_mem (hm.resolve_right ?_))
    exact fun hm => hpending addr m hm.2.1
  obtain rfl : s = s0 := Option.some.inj (hstate.symm.trans hstate0)
  obtain ⟨-, hlogs, -, -, -, hranges⟩ := Multidownloader.storeData_spec hstore
  obtain ⟨hkept, hadded, hpending, -⟩ := State.afterLogQueries_spec hafter
  -- what was downloaded are the pending blocks whose headers were returned
  have hdownloaded : ∀ addr n, (∃ q ∈ downloads.map Download.query, addr ∈ q.addrs ∧
      n ∈ q.blockRange) ↔ answers.Fetches s addr n := by
    intro addr n
    rw [hqueries]
    constructor
    · rintro ⟨q, hq, haddr, hn⟩
      obtain ⟨h, hh, rfl⟩ := List.mem_map.mp hq
      obtain ⟨hpos, rfl⟩ := mem_blockQuery.mp hn
      exact ⟨hpos, mem_addrs_blockQuery.mp haddr, headers, total, hheaders, htotal, h, hh, rfl⟩
    · rintro ⟨hpos, hin, headers', total', hheaders', htotal', h, hh, rfl⟩
      obtain rfl : headers = headers' := Option.some.inj (hheaders.symm.trans hheaders')
      obtain rfl : total = total' := Option.some.inj (htotal.symm.trans htotal')
      exact ⟨blockQuery s.pending h, List.mem_map_of_mem hh, mem_addrs_blockQuery.mpr hin,
        mem_blockQuery.mpr ⟨hpos, rfl⟩⟩
  have hdownloads : ∀ addr n, Downloaded downloads addr n ↔ answers.Fetches s addr n := by
    intro addr n
    rw [← hdownloaded]
    simp [Downloaded]
  have hsynced : ∀ addr n, n ∈ range s'.synced addr ↔
      Between (answers.Has s addr) n := by
    intro addr n
    constructor
    · intro hn
      exact (State.between_afterLogQueries hafter hn).trans fun m hm =>
        .of_mem (hm.imp_right (hdownloaded addr m).mp)
    · refine fun hn => mem_of_between (hn.trans fun m hm => .of_mem ?_)
      rcases hm with hm | hm
      · exact hkept addr m hm
      · obtain ⟨q, hq, haddr, hm⟩ := (hdownloaded addr m).mpr hm
        exact hadded q hq addr haddr m hm
  have hleft : ∀ addr n, n ∈ range s'.pending addr ↔
      n ∈ range s.pending addr ∧ ¬ answers.Fetches s addr n := by
    intro addr n
    rw [hpending, ← hdownloaded]
    simp
  constructor
  · rintro ⟨s1, hs1, hclean⟩
    cases hs1
    refine ⟨fun addr n hn hin => ?_, fun addr n hn => ?_⟩
    · by_contra hnot
      exact hclean.disjoint addr n (hkept addr n hn) ((hleft addr n).mpr ⟨hin, hnot⟩)
    · exact (hclean.synced addr n ((hsynced addr n).mpr hn)).imp_right (hdownloads addr n).mp
  · rintro ⟨hboth, hgap⟩
    have hhas : ∀ addr n, n ∈ range s'.synced addr → answers.Has s addr n :=
      fun addr n hn => hgap addr n ((hsynced addr n).mp hn)
    refine ⟨s', rfl, fun d hd l hl => ?_, fun addr n hn => ?_, fun addr n hn => ?_,
      fun addr n hn hin => ?_, fun addr n hn hnot => ?_⟩
    · rw [hlogs]
      exact List.mem_append_right _ (List.mem_map_of_mem (List.mem_flatMap.mpr ⟨d, hd, hl⟩))
    · exact (hhas addr n hn).imp_right (hdownloads addr n).mpr
    · rw [hranges] at hn
      split at hn
      · exact .inr ((hhas addr n hn).imp_right (hdownloads addr n).mpr)
      · exact .inl hn
    · obtain ⟨hwas, hnot⟩ := (hleft addr n).mp hin
      exact hnot ((hhas addr n hn).elim (fun hn => hboth addr n hn hwas) id)
    · exact (hleft addr n).mpr ⟨hn, fun hin => hnot ((hdownloads addr n).mpr hin)⟩

/-! ## The first of two headers is missing -/

/-- A contract is synced at block 10 and pending up to block 12. -/
def firstTen : Trace Unit ℕ :=
  [.registerSyncer ⟨"bridge", [()], 10, LatestBlock⟩, .initialized fun _ => some 12,
    .stepSafe ⟨some 10, [.logs []], none⟩].foldl (Trace.step 3) Trace.new

/-- The node has all headers, or all but the one of block 11. -/
def headersBut (missing : Option ℕ) : UnsafeAnswers Unit ℕ where
  headers := some fun n => if missing = some n then .error .notFound else .ok (Trace.header n n)
  logs := fun _ => some []

theorem stepUnsafe_clean_iff_allHeaders : ∃ s md' s' downloads, firstTen.md.state = some s ∧
    firstTen.md.stepUnsafe (headersBut none) = .ok (md', downloads) ∧ md'.state = some s' ∧
      CleanStep firstTen.md md' s s' downloads := by
  obtain ⟨s, hs, hsynced, hpending, htotal⟩ : ∃ s, firstTen.md.state = some s ∧
      range s.synced () = .new 10 10 ∧ range s.pending () = .new 11 12 ∧
      getTotalPendingBlockRange s.pending = some (.new 11 12) :=
    ⟨_, rfl, rfl, rfl, rfl⟩
  obtain ⟨md', downloads, hstep⟩ : ∃ md' downloads,
      firstTen.md.stepUnsafe (headersBut none) = .ok (md', downloads) := ⟨_, _, rfl⟩
  have hfetches : ∀ n, n = 11 ∨ n = 12 → (headersBut none).Fetches s () n := by
    rintro n (rfl | rfl)
    · exact ⟨by decide, by rw [hpending]; decide, _, _, rfl, htotal, Trace.header 11 11, by decide, rfl⟩
    · exact ⟨by decide, by rw [hpending]; decide, _, _, rfl, htotal, Trace.header 12 12, by decide, rfl⟩
  have hgap : (headersBut none).LeavesNoGap s := by
    refine ⟨fun _ n _ hin => hfetches n ?_, fun _ n hn => ?_⟩
    · rw [hpending, mem_new] at hin
      omega
    · have hin : n ∈ BlockRange.new 10 12 := by
        refine mem_of_between (hn.trans fun m hm => .of_mem (mem_new.mpr ?_))
        rcases hm with hm | ⟨-, hm, -⟩
        · rw [hsynced, mem_new] at hm
          omega
        · rw [hpending, mem_new] at hm
          omega
      rw [mem_new] at hin
      by_cases hten : n = 10
      · exact .inl (by rw [hsynced, hten]; decide)
      · exact .inr (hfetches n (by omega))
  obtain ⟨s', hs', hclean⟩ := (stepUnsafe_clean_iff hs hstep).mpr hgap
  exact ⟨s, md', s', downloads, hs, hstep, hs', hclean⟩

/-- Without the header of block 11 the step succeeds with block 12, and block 11, which was not
downloaded, is synced in memory and in the rows. It is pending too. -/
theorem stepUnsafe_syncs_gap :
    Run.Reach (Trace.step 3) (fun _ _ => True) Trace.new firstTen ∧ ∃ md' downloads s',
      firstTen.md.stepUnsafe (headersBut (some 11)) = .ok (md', downloads) ∧ md'.state = some s' ∧
      (∀ d ∈ downloads, 11 ∉ d.query.blockRange) ∧ 11 ∈ range s'.synced () ∧
      11 ∈ range s'.pending () ∧ 11 ∈ md'.storage.syncedRange () :=
  ⟨Run.Reach.of_along ⟨trivial, trivial, trivial, trivial⟩, _, _, _, rfl, rfl, by decide, by decide,
    by decide, by decide⟩

end AggKit.MultiDownloader
