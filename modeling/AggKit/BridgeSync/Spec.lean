import AggKit.BridgeSync.Processor

/-!
# What the handlers do when they succeed

One lemma for each statement and each small handler, saying when it returns no error and what the
transaction is then. The handlers of whole events are described on top of these by what they do to
the tables (`EventPart.Effect` in the next module).
-/

namespace AggKit.BridgeSync

open Table Exec

variable {H : Type} {tx tx' : Tx H}

@[simp]
theorem execute_eq_ok_iff {statement : Tables H → Except (SyncError H) (Tables H)} {u : Unit} :
    execute statement tx = .ok u tx' ↔
      ∃ db, statement tx.db = .ok db ∧ tx' = { tx with db := db } := by
  unfold execute
  simp only [bind_eq_ok_iff, get_eq_ok_iff]
  constructor
  · rintro ⟨_, _, ⟨rfl, rfl⟩, hset⟩
    cases hdb : statement tx.db with
    | ok db =>
      simp only [hdb, set_eq_ok_iff] at hset
      exact ⟨db, rfl, hset.symm⟩
    | error e => simp [hdb] at hset
  · rintro ⟨db, hdb, rfl⟩
    exact ⟨_, _, ⟨rfl, rfl⟩, by simp [hdb]⟩

@[simp]
theorem orThrow_eq_ok_iff {α : Type} {x : Except (SyncError H) α} {a : α} :
    orThrow x tx = .ok a tx' ↔ x = .ok a ∧ tx' = tx := by
  cases x with
  | ok b => simp [orThrow, eq_comm]
  | error e => simp [orThrow]

@[simp]
theorem modifyExitTree_eq_ok_iff {f : Tree.Store H → Tree.Store H} {u : Unit} :
    modifyExitTree f tx = .ok u tx' ↔
      tx' = { tx with exitTree := { tx.exitTree with store := f tx.exitTree.store } } := by
  unfold modifyExitTree
  simp only [bind_eq_ok_iff, get_eq_ok_iff, set_eq_ok_iff]
  constructor
  · rintro ⟨_, _, ⟨rfl, rfl⟩, hset⟩
    exact hset.symm
  · rintro rfl
    exact ⟨_, _, ⟨rfl, rfl⟩, rfl⟩

/-- The block is there after the upsert. -/
theorem exists_mem_upsertBlock (rows : List (ℕ × H)) (num : ℕ) (hash : H) :
    ∃ r ∈ upsertBlock rows num hash, r.1 = num := by
  unfold upsertBlock
  split_ifs with hany
  · simp only [List.any_eq_true, decide_eq_true_eq] at hany
    obtain ⟨r, hr, hnum⟩ := hany
    refine ⟨(num, hash), List.mem_map.mpr ⟨r, hr, ?_⟩, rfl⟩
    rw [if_pos hnum]
  · exact ⟨(num, hash), by simp, rfl⟩

theorem insertInto_eq_ok_iff {α κ : Type} [DecidableEq κ] {key : α → κ} {name : TableName}
    {block : List (ℕ × H)} {t t' : Keyed key} {blockNum : ℕ} {row : α} :
    insertInto name block t blockNum row = .ok t' ↔
      ((∀ s ∈ t.rows, key s ≠ key row) ∧ t'.rows = t.rows ++ [row]) ∧
        ∃ r ∈ block, r.1 = blockNum := by
  rw [← Keyed.insert_eq_some_iff]
  unfold insertInto
  cases t.insert row with
  | none => simp
  | some t'' =>
    split_ifs with hblock
    · simp only [List.any_eq_true, decide_eq_true_eq] at hblock
      simp [hblock]
    · simp only [List.any_eq_true, decide_eq_true_eq] at hblock
      simp [hblock]

theorem map_eq_ok_iff {ε α β : Type} {f : α → β} {x : Except ε α} {b : β} :
    x.map f = .ok b ↔ ∃ a, x = .ok a ∧ b = f a := by
  cases x with
  | ok a => simp [Except.map, eq_comm]
  | error e => simp [Except.map]

theorem safeUint64_eq_ok_iff {value n : ℕ} :
    (safeUint64 value : Except (SyncError H) ℕ) = .ok n ↔ value < 2^64 ∧ n = value := by
  unfold safeUint64
  split_ifs with hvalue
  · simp only [Except.ok.injEq, hvalue, true_and, eq_comm]
  · simp only [hvalue, false_and]

theorem normalizeDepositCount_eq_ok_iff {depositCount n : ℕ} {index : UInt32} :
    (normalizeDepositCount depositCount : Except (SyncError H) (ℕ × UInt32)) = .ok (n, index) ↔
      depositCount < 2^32 ∧ n = depositCount ∧ index = UInt32.ofNat depositCount := by
  unfold normalizeDepositCount safeUint64
  by_cases h32 : depositCount < 2^32
  · have h64 : depositCount < 2^64 := by omega
    simp only [bind, Except.bind, h64, h32, if_true, Except.ok.injEq, Prod.mk.injEq, true_and]
    exact and_congr eq_comm eq_comm
  · by_cases h64 : depositCount < 2^64
    · simp only [bind, Except.bind, h64, h32, if_true, if_false, reduceCtorEq, false_and]
    · simp only [bind, Except.bind, h64, h32, if_false, reduceCtorEq, false_and]

section handlers

variable [DecidableEq H] (cfg : Config H)

/-- The exit tree as the transaction sees it. -/
def Tx.treeState (tx : Tx H) : Tree.State H := ⟨tx.exitTree.tree, tx.exitTree.store⟩

/-- The outcome of a put on the exit tree of a transaction. -/
def Tx.put (tx : Tx H) (blockNum blockPos : ℕ) (leaf : Tree.Leaf H) : Tree.PutOutcome H :=
  Tree.putLeaf cfg.keccak.pair cfg.keccak.zero tx.exitTree.tree tx.exitTree.store blockNum blockPos
    leaf

/-- The transaction after a successful put. -/
def Tx.afterPut (tx : Tx H) (o : Tree.PutOutcome H) : Tx H :=
  { tx with
    exitTree := ⟨o.tree, o.store, tx.exitTree.saved,
      tx.exitTree.rollbackCallbacks ++ [Tree.decreaseIndex]⟩ }

theorem putLeaf_eq_ok_iff {blockNum blockPos : ℕ} {leaf : Tree.Leaf H} {u : Unit} :
    putLeaf cfg blockNum blockPos leaf tx = .ok u tx' ↔
      (∃ h, (tx.put cfg blockNum blockPos leaf).result = .ok h) ∧
        tx' = tx.afterPut (tx.put cfg blockNum blockPos leaf) := by
  unfold putLeaf
  simp only [bind_eq_ok_iff, get_eq_ok_iff]
  constructor
  · rintro ⟨_, _, ⟨rfl, rfl⟩, hset⟩
    cases hresult : (tx.put cfg blockNum blockPos leaf).result with
    | ok h =>
      unfold Tx.put at hresult
      simp only [hresult, set_eq_ok_iff] at hset
      exact ⟨⟨h, rfl⟩, hset.symm⟩
    | error e =>
      unfold Tx.put at hresult
      simp [hresult] at hset
  · rintro ⟨⟨h, hresult⟩, rfl⟩
    refine ⟨_, _, ⟨rfl, rfl⟩, ?_⟩
    unfold Tx.put at hresult
    simp only [hresult, set_eq_ok_iff]
    rfl

theorem addLeaf_eq_ok_iff {blockNum blockPos : ℕ} {leaf : Tree.Leaf H} {u : Unit} :
    addLeaf cfg blockNum blockPos leaf tx = .ok u tx' ↔
      putLeaf cfg blockNum blockPos leaf tx = .ok u tx' := by
  unfold addLeaf
  split
  · simp_all
  · simp_all
  · simp_all

/-- The check of the last root changes nothing. -/
theorem eq_of_sanityCheckLatestLER {ler : H} {u : Unit}
    (hok : sanityCheckLatestLER cfg ler tx = .ok u tx') : tx' = tx := by
  unfold sanityCheckLatestLER at hok
  simp only [bind_eq_ok_iff, get_eq_ok_iff] at hok
  obtain ⟨_, _, ⟨rfl, rfl⟩, hok⟩ := hok
  split_ifs at hok <;> simp_all

end handlers

end AggKit.BridgeSync
