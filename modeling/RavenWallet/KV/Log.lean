/-
  Runs of operations on the local key-value store (BRReplicatedKVStore.swift).

  * `run_logged`: the versions of each key are counted from one, in every run;
  * `successes_of_lt`, `successes_of_eq`: of the operations for one version of a
    key, those that find a later one fail, and the first that finds it succeeds;
  * `versionLog`: what holds in every run.
-/
import RavenWallet.KV.Store

namespace RavenWallet

namespace KV

variable (env : Env)

/-- The table after operations, each at its time. -/
def runOps : List (ℕ × Op) → Db → Db
  | [], rows => rows
  | (now, op) :: ops, rows => runOps ops (op.run env now rows).2

/-- An operation for the given version of a key. -/
def Op.writes (key : String) (localVer : ℕ) (op : Op) : Bool :=
  op.key = key ∧ op.localVer = localVer

/-- How many of the operations for a version of a key succeed in a run. -/
def successes (key : String) (localVer : ℕ) : List (ℕ × Op) → Db → ℕ
  | [], _ => 0
  | (now, op) :: ops, rows =>
    (if op.writes key localVer ∧ (op.run env now rows).1.isOk then 1 else 0) +
      successes key localVer ops (op.run env now rows).2

section
variable {env} {rows : Db} {ops : List (ℕ × Op)} {key : String} {localVer : ℕ}

theorem run_logged (h : Logged rows) : Logged (runOps env ops rows) := by
  induction ops generalizing rows with
  | nil => exact h
  | cons op ops ih => exact ih (h.run op.2)

theorem prefix_run (h : Logged rows) (now : ℕ) (op : Op) :
    rows <+: (op.run env now rows).2 := by
  rcases Op.run_cases env now op h with
    ⟨e, heq⟩ | ⟨-, -, -, row, -, -, heq⟩
  · rw [heq]
  · rw [heq]
    exact List.prefix_append rows [row]

/-- The version of a key after a row is added. -/
theorem Logged.version_append (h : Logged rows) {row : Row}
    (hrow : row.version = (localVersion rows row.key).1 + 1) (key : String) :
    (localVersion (rows ++ [row]) key).1 =
      (localVersion rows key).1 + if row.key = key then 1 else 0 := by
  rw [(h.append hrow).localVersion_eq, h.localVersion_eq, rowsOf_append, rowsOf_singleton,
    List.length_append]
  split_ifs <;> rfl

/-- What an operation does to the version of a key, and to the count. -/
theorem step_cases (env : Env) (h : Logged rows) (now : ℕ) (op : Op) :
    ((op.run env now rows).1.isOk = false ∧ (op.run env now rows).2 = rows) ∨
    ((op.run env now rows).1.isOk = true ∧ env.keyRegex op.key = true ∧ op.mayWrite = true ∧
      op.localVer = (localVersion rows op.key).1 ∧ ∀ key,
        (localVersion (op.run env now rows).2 key).1 =
          (localVersion rows key).1 + if op.key = key then 1 else 0) := by
  rcases Op.run_cases env now op h with
    ⟨e, heq⟩ | ⟨hkey, hmay, hver, row, hrow, hversion, heq⟩
  · rw [heq]
    exact Or.inl ⟨rfl, rfl⟩
  · rw [heq]
    refine Or.inr ⟨rfl, hkey, hmay, hver, fun key => ?_⟩
    rw [← hrow]
    exact h.version_append (by rw [hversion, hver, hrow]) key

/-- Once a key has a later version, the operations for an earlier one fail. -/
theorem successes_of_lt (h : Logged rows) (hlt : localVer < (localVersion rows key).1) :
    successes env key localVer ops rows = 0 := by
  induction ops generalizing rows with
  | nil => rfl
  | cons op ops ih =>
    obtain ⟨now, op⟩ := op
    rw [successes]
    rcases step_cases env h now op with ⟨herr, hsame⟩ | ⟨-, -, -, hver, hversion⟩
    · rw [hsame, ih h hlt, herr]
      simp
    · have hnot : ¬ (op.writes key localVer = true ∧ (op.run env now rows).1.isOk = true) := by
        rintro ⟨hwrites, -⟩
        obtain ⟨hkey, hlocal⟩ := of_decide_eq_true hwrites
        rw [hlocal, hkey] at hver
        omega
      rw [if_neg hnot, Nat.zero_add]
      exact ih (h.run op) (by rw [hversion]; omega)

/-- Of the operations for the current version of a key, the first that may write succeeds. -/
theorem successes_of_eq (h : Logged rows) (hkey : env.keyRegex key = true)
    (hver : localVer = (localVersion rows key).1)
    (hwriter : ∃ w ∈ ops, w.2.writes key localVer = true ∧ w.2.mayWrite = true) :
    successes env key localVer ops rows = 1 := by
  induction ops generalizing rows with
  | nil =>
    obtain ⟨w, hw, -⟩ := hwriter
    cases hw
  | cons op ops ih =>
    obtain ⟨now, op⟩ := op
    rw [successes]
    rcases step_cases env h now op with ⟨herr, hsame⟩ | ⟨hok, -, -, hop, hversion⟩
    · -- the operation is not the writer
      rw [hsame, herr, if_neg (by simp), Nat.zero_add]
      refine ih h hver ?_
      obtain ⟨w, hw, hwrites, hmay⟩ := hwriter
      rcases List.mem_cons.1 hw with rfl | hw
      · obtain ⟨hopkey, hlocal⟩ := of_decide_eq_true hwrites
        obtain ⟨row, -, -, heq⟩ := Op.run_of_match now h (by rw [hopkey]; exact hkey)
          (by rw [hopkey, hlocal, hver]) hmay
        rw [heq] at herr
        cases herr
      · exact ⟨w, hw, hwrites, hmay⟩
    · by_cases hopkey : op.key = key
      · have hlocal : op.localVer = localVer := by rw [hop, hopkey, hver]
        rw [if_pos ⟨decide_eq_true ⟨hopkey, hlocal⟩, hok⟩,
          successes_of_lt (h.run op) (by rw [hversion, if_pos hopkey]; omega)]
      · have hnot : ¬ (op.writes key localVer = true ∧ (op.run env now rows).1.isOk = true) := by
          rintro ⟨hwrites, -⟩
          exact hopkey (of_decide_eq_true hwrites).1
        rw [if_neg hnot, Nat.zero_add]
        refine ih (h.run op) (by rw [hversion, if_neg hopkey]; exact hver) ?_
        obtain ⟨w, hw, hwrites, hmay⟩ := hwriter
        rcases List.mem_cons.1 hw with rfl | hw
        · exact absurd (of_decide_eq_true hwrites).1 hopkey
        · exact ⟨w, hw, hwrites, hmay⟩

end

/-- In every run, the versions of each key are counted from one and rows are only added; an
    operation for another version than the current one, or with an invalid key, throws and leaves
    the table; of the operations for the current version of a key exactly one succeeds, if there is
    one that may write. -/
theorem versionLog (ops : List (ℕ × Op)) :
    let rows := runOps env ops []
    (∀ key, (rowsOf rows key).map Row.version = List.range' 1 (rowsOf rows key).length) ∧
    (∀ now (op : Op), rows <+: (op.run env now rows).2) ∧
    (∀ now (op : Op), env.keyRegex op.key = true → op.localVer ≠ (localVersion rows op.key).1 →
      op.run env now rows = (.error (.store op.mismatch), rows)) ∧
    (∀ now (op : Op), env.keyRegex op.key = false →
      op.run env now rows = (.error (.store .invalidKey), rows)) ∧
    (∀ key (ws : List (ℕ × Op)), env.keyRegex key = true →
      (∃ w ∈ ws, w.2.writes key (localVersion rows key).1 = true ∧ w.2.mayWrite = true) →
      successes env key (localVersion rows key).1 ws rows = 1) := by
  intro rows
  have hlog : Logged rows := run_logged Logged.nil
  refine ⟨hlog, fun now op => prefix_run hlog now op, fun now op hkey hne => ?_, fun now op hkey => ?_,
    fun key ws hkey hwriter => ?_⟩
  · exact Op.run_of_mismatch hkey (Or.inl hne)
  · exact Op.run_of_invalid hkey
  · exact successes_of_eq hlog hkey rfl hwriter

/-- A store without encryption. -/
def plainEnv : Env where
  keyRegex _ := true
  encrypted := false
  encryptedReplication := false
  encrypt := id
  chacha20Poly1305AEADDecrypt := .ok

/-- Without a version, a key that exists is not found. -/
theorem not_mismatch_conflict : ¬ ∀ (env : Env) (ops : List (ℕ × Op)) (now : ℕ) (op : Op),
    env.keyRegex op.key = true →
    op.localVer ≠ (localVersion (runOps env ops []) op.key).1 →
    (op.run env now (runOps env ops [])).1 = .error (.store .conflict) := by
  intro h
  have hthrown := h plainEnv [(0, .set "hello" [0] 0)] 1 (.del "hello" 0) rfl (by decide)
  cases hthrown

end KV

end RavenWallet
